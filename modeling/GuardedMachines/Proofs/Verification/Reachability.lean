import GuardedMachines.Proofs.Reordering
import GuardedMachines.Verification.Tautology

/-!
The exploration of a machine visits the states that can be reached from the
initial one, each of them once. Between its steps the states are those done and
those waiting; all of them can be reached, none is listed twice, and a transition
leads from a state that is done to one of them. There are not more of them than
the fuel allows, so that the exploration is run until none is waiting.
-/

namespace GuardedMachines.Verification.Tautology

/-- A way leads to the state from the initial one, whatever the guards and events on it. -/
inductive Reaches (m : Machine) : String → Prop
  | initial (h : (m.state? initialState).isSome = true) : Reaches m initialState
  | next {state : String} {t : Transition} (h : Reaches m state) (ht : t ∈ leaving m state) :
      Reaches m t.destination

def fresh (seen : List String) : List String → List String
  | [] => []
  | name :: rest =>
    if seen.contains name then fresh seen rest else name :: fresh (seen ++ [name]) rest

def taken (m : Machine) : Nat → List String → List String → List String
  | fuel + 1, seen, state :: queue =>
    let found := fresh seen ((leaving m state).map Transition.destination)
    state :: taken m fuel (seen ++ found) (queue ++ found)
  | _, _, _ => []

def reachable (m : Machine) : List String :=
  taken m (m.transitions.length + 1) (start m) (start m)

/-- From the states seen and those waiting, the exploration runs until none is waiting and takes
the listed states from the queue. -/
inductive Explores (m : Machine) : List String → List String → List String → Prop
  | stop (seen : List String) : Explores m seen [] []
  | take {seen queue found taken : List String} {state : String}
      (hfound : found = fresh seen ((leaving m state).map Transition.destination))
      (h : Explores m (seen ++ found) (queue ++ found) taken) :
      Explores m seen (state :: queue) (state :: taken)

variable {m m' : Machine} {seen names done queue : List String} {state : String}

theorem mem_fresh : state ∈ fresh seen names ↔ state ∈ names ∧ state ∉ seen := by
  induction names generalizing seen with
  | nil => simp [fresh]
  | cons name rest ih =>
    unfold fresh
    split
    · next h =>
      have hseen : name ∈ seen := List.contains_iff_mem.mp h
      rw [ih, List.mem_cons]
      constructor
      · exact fun ⟨hrest, hnew⟩ => ⟨.inr hrest, hnew⟩
      · rintro ⟨rfl | hrest, hnew⟩
        · exact absurd hseen hnew
        · exact ⟨hrest, hnew⟩
    · next h =>
      have hname : name ∉ seen := fun hseen => h (List.contains_iff_mem.mpr hseen)
      rw [List.mem_cons, List.mem_cons, ih, List.mem_append, List.mem_singleton, not_or]
      by_cases heq : state = name
      · subst heq
        simp [hname]
      · simp [heq]

theorem nodup_fresh (seen names : List String) : (fresh seen names).Nodup := by
  induction names generalizing seen with
  | nil => exact .nil
  | cons name rest ih =>
    unfold fresh
    split
    · exact ih seen
    · refine List.nodup_cons.mpr ⟨fun hmem => ?_, ih (seen ++ [name])⟩
      exact (mem_fresh.mp hmem).2 (List.mem_append_right _ List.mem_cons_self)

theorem mem_transitions_of_mem_leaving {t : Transition} (h : t ∈ leaving m state) :
    t ∈ m.transitions := by
  unfold leaving at h
  cases hs : m.state? state with
  | none =>
    rw [hs] at h
    exact absurd h List.not_mem_nil
  | some s =>
    rw [hs] at h
    exact List.mem_flatMap.mpr ⟨s, List.mem_of_find?_eq_some hs, h⟩

structure Exploring (m : Machine) (done queue : List String) : Prop where
  nodup : (done ++ queue).Nodup
  reaches : ∀ state ∈ done ++ queue, Reaches m state
  closed : ∀ state ∈ done, ∀ t ∈ leaving m state, t.destination ∈ done ++ queue

namespace Exploring

theorem step (h : Exploring m done (state :: queue)) :
    let found := fresh (done ++ state :: queue) ((leaving m state).map Transition.destination)
    Exploring m (done ++ [state]) (queue ++ found) := by
  intro found
  have hsplit : (done ++ [state]) ++ (queue ++ found) = (done ++ state :: queue) ++ found := by
    simp
  have hfound : ∀ t ∈ leaving m state, t.destination ∈ (done ++ state :: queue) ++ found := by
    intro t ht
    by_cases hseen : t.destination ∈ done ++ state :: queue
    · exact List.mem_append_left _ hseen
    · exact List.mem_append_right _ (mem_fresh.mpr ⟨List.mem_map_of_mem ht, hseen⟩)
  constructor
  · rw [hsplit, List.nodup_append]
    refine ⟨h.nodup, nodup_fresh _ _, ?_⟩
    rintro name hname _ hnew rfl
    exact (mem_fresh.mp hnew).2 hname
  · rw [hsplit]
    intro name hname
    rcases List.mem_append.mp hname with hname | hname
    · exact h.reaches name hname
    · obtain ⟨t, ht, rfl⟩ := List.mem_map.mp (mem_fresh.mp hname).1
      exact .next (h.reaches state (List.mem_append_right _ List.mem_cons_self)) ht
  · rw [hsplit]
    intro name hname t ht
    rcases List.mem_append.mp hname with hname | hname
    · exact List.mem_append_left _ (h.closed name hname t ht)
    · rw [List.mem_singleton.mp hname] at ht
      exact hfound t ht

/-- Every state but the initial one is the destination of a transition. -/
theorem length_le (h : Exploring m done queue) :
    (done ++ queue).length ≤ m.transitions.length + 1 := by
  have hsub : done ++ queue ⊆ initialState :: m.transitions.map Transition.destination := by
    intro name hname
    cases h.reaches name hname with
    | initial => exact List.mem_cons_self
    | next _ ht =>
      exact List.mem_cons_of_mem _ (List.mem_map_of_mem (mem_transitions_of_mem_leaving ht))
  have hle := (List.subperm_of_subset h.nodup hsub).length_le
  rwa [List.length_cons, List.length_map] at hle

/-- With enough fuel the exploration is run to its end. -/
theorem explores (h : Exploring m done queue) {fuel : Nat}
    (hfuel : m.transitions.length + 1 ≤ fuel + done.length) :
    Explores m (done ++ queue) queue (taken m fuel (done ++ queue) queue) := by
  induction fuel generalizing done queue with
  | zero =>
    have hlength := h.length_le
    rw [List.length_append] at hlength
    obtain rfl : queue = [] := List.length_eq_zero_iff.mp (by omega)
    exact .stop _
  | succ fuel ih => cases queue with
    | nil => exact .stop _
    | cons state queue =>
      have hnext := ih h.step (by simpa [Nat.add_assoc, Nat.add_comm 1] using hfuel)
      rw [List.append_assoc, List.singleton_append, ← List.cons_append,
        ← List.append_assoc] at hnext
      exact .take rfl hnext

end Exploring

/-- At the end of the exploration all states are done. -/
theorem Explores.exploring {taken : List String} (h : Explores m seen queue taken)
    (hseen : seen = done ++ queue) (hexploring : Exploring m done queue) :
    Exploring m (done ++ taken) [] ∧ queue ⊆ taken := by
  induction h generalizing done with
  | stop seen =>
    rw [List.append_nil]
    exact ⟨hexploring, List.Subset.refl _⟩
  | @take seen queue found taken state hfound h ih =>
    subst hseen hfound
    have hnext := hexploring.step
    dsimp only at hnext
    generalize fresh (done ++ state :: queue) ((leaving m state).map Transition.destination) =
      found at hnext ih
    have hsplit : done ++ state :: queue ++ found = (done ++ [state]) ++ (queue ++ found) := by
      simp
    obtain ⟨hdone, hqueue⟩ := ih hsplit hnext
    constructor
    · simpa using hdone
    · intro name hname
      rcases List.mem_cons.mp hname with rfl | hname
      · exact List.mem_cons_self
      · exact List.mem_cons_of_mem _ (hqueue (List.mem_append_left _ hname))

theorem exploring_start (m : Machine) : Exploring m [] (start m) := by
  unfold start
  split
  · next hinitial =>
    refine ⟨List.nodup_singleton _, fun name hname => ?_, fun name hname => ?_⟩
    · rw [List.mem_singleton.mp hname]
      exact .initial hinitial
    · exact absurd hname List.not_mem_nil
  · refine ⟨.nil, fun name hname => ?_, fun name hname => ?_⟩
    · exact absurd hname List.not_mem_nil
    · exact absurd hname List.not_mem_nil

theorem explores_reachable (m : Machine) : Explores m (start m) (start m) (reachable m) :=
  (exploring_start m).explores (Nat.le_refl (m.transitions.length + 1))

theorem exploring_reachable (m : Machine) : Exploring m (reachable m) [] ∧
    ((m.state? initialState).isSome = true → initialState ∈ reachable m) := by
  obtain ⟨hdone, hqueue⟩ := (explores_reachable m).exploring rfl (exploring_start m)
  refine ⟨hdone, fun hinitial => hqueue ?_⟩
  rw [start, if_pos hinitial]
  exact List.mem_singleton.mpr rfl

theorem nodup_reachable (m : Machine) : (reachable m).Nodup := by
  have hnodup := (exploring_reachable m).1.nodup
  rwa [List.append_nil] at hnodup

/-- The exploration visits exactly the states that a way leads to. -/
theorem mem_reachable : state ∈ reachable m ↔ Reaches m state := by
  obtain ⟨hdone, hinitial⟩ := exploring_reachable m
  constructor
  · intro h
    exact hdone.reaches state (List.mem_append_left _ h)
  · intro h
    induction h with
    | initial h => exact hinitial h
    | next _ ht ih => simpa using hdone.closed _ ih _ ht

theorem leaving_perm (h : m.Reordered m') (hm : m.WellNamed) (state : String) :
    (leaving m state).Perm (leaving m' state) := by
  unfold leaving
  rcases h.state?_cases hm state with ⟨hs, hs'⟩ | ⟨s, s', hs, hs', hrel⟩
  · rw [hs, hs']
  · rw [hs, hs']
    exact hrel.transitions_perm

theorem Reaches.reordered (h : m.Reordered m') (hm : m.WellNamed) (hreaches : Reaches m state) :
    Reaches m' state := by
  induction hreaches with
  | initial hinitial =>
    apply Reaches.initial
    rcases h.state?_cases hm initialState with ⟨hs, -⟩ | ⟨s, s', -, hs', -⟩
    · rw [hs] at hinitial
      cases hinitial
    · rw [hs']
      rfl
  | next _ ht ih => exact .next ih ((leaving_perm h hm _).mem_iff.mp ht)

theorem reachable_perm (h : m.Reordered m') (hm : m.WellNamed) :
    (reachable m).Perm (reachable m') := by
  rw [List.perm_ext_iff_of_nodup (nodup_reachable m) (nodup_reachable m')]
  intro state
  rw [mem_reachable, mem_reachable]
  exact ⟨.reordered h hm, .reordered h.symm (h.wellNamed hm)⟩

end GuardedMachines.Verification.Tautology

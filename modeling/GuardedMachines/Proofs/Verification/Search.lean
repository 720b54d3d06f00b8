import GuardedMachines.Verification.Check
import Mathlib.Data.List.FinRange
import Mathlib.Data.List.Forall2

/-!
A search goes through a list of probes. It keeps what they find, or only the first
violation, with which it ends. A search for all violations that comes to its end
has asked every probe and reports what they found, in order. Where each probe
finds one violation or none, the report goes along the places at which there is
one. Probes of pairs go through the pairs of positions of a list, the smaller
position first.
-/

namespace GuardedMachines

/-- Queries in sequence may be grouped in any way, their records included. -/
instance : LawfulMonad Query := by
  refine LawfulMonad.mk' Query ?_ ?_ ?_
  · rintro α ⟨cause | a, records⟩
    · rfl
    · exact congrArg (Query.mk _) (List.append_nil records)
  · intro α β a f
    rfl
  · rintro α β γ ⟨cause | a, records⟩ f g
    · rfl
    · show (⟨(f a).result, records ++ (f a).records⟩ : Query β) >>= g =
        ⟨(f a >>= g).result, records ++ (f a >>= g).records⟩
      rcases f a with ⟨cause | b, later⟩
      · rfl
      · exact congrArg (Query.mk _) (List.append_assoc records later _)

theorem Query.notes_nil_bind {α : Type} (f : Unit → Query α) :
    (liftM (Traced.notes []) : Query Unit) >>= f = f () := rfl

namespace Verification

def Mode.kept : Mode → List Violation → List Violation
  | firstViolation, found => found.take 1
  | allViolations, found => found

def Probe.found (violations : List Violation) : Probe := fun _ => pure violations

def search (unit : String) (mode : Mode) (oracle : Oracle) : List Probe → Query (List Violation)
  | [] => pure []
  | probe :: rest => do
    let found := mode.kept (← probe oracle)
    Traced.notes (found.map fun v => .warn fun _ => unit ++ ": " ++ v.text)
    if mode.isDone found then return found
    return found ++ (← search unit mode oracle rest)

@[simp] theorem Mode.isDone_nil (mode : Mode) : mode.isDone [] = false :=
  Bool.and_false _

@[simp] theorem Mode.isDone_allViolations (found : List Violation) :
    allViolations.isDone found = false := rfl

theorem Mode.isDone_append {mode : Mode} {found : List Violation} (h : mode.isDone found = false)
    (later : List Violation) : mode.isDone (found ++ later) = mode.isDone later := by
  cases mode with
  | allViolations => rfl
  | firstViolation =>
    have hnil : found = [] := by simpa [isDone] using h
    rw [hnil, List.nil_append]

variable {name : String} {oracle : Oracle}

/-- A search over probes and further probes is two searches in sequence, unless the first one is
done. -/
theorem search_append_eq (mode : Mode) (probes probes' : List Probe) :
    search name mode oracle (probes ++ probes') = do
      let found ← search name mode oracle probes
      if mode.isDone found then return found
      return found ++ (← search name mode oracle probes') := by
  induction probes with
  | nil => simp [search]
  | cons probe rest ih =>
    simp only [List.cons_append, search, ih, bind_assoc]
    congr 1
    funext found
    congr 1
    funext _
    cases hdone : mode.isDone (mode.kept found) with
    | true => simp [hdone]
    | false =>
      simp only [Bool.false_eq_true, if_false, bind_assoc, pure_bind, Mode.isDone_append hdone]
      congr 1
      funext later
      split
      · rw [pure_bind]
      · simp only [bind_assoc, pure_bind, List.append_assoc]

theorem result_search_cons (mode : Mode) (probe : Probe) (rest : List Probe) :
    (search name mode oracle (probe :: rest)).result =
      (probe oracle).result.bind fun found =>
        if mode.isDone (mode.kept found) then .ok (mode.kept found)
        else (search name mode oracle rest).result.map (mode.kept found ++ ·) := by
  rw [search, Query.result_bind]
  congr 1
  funext found
  dsimp only
  rw [Query.result_lift_bind]
  cases mode.isDone (mode.kept found) with
  | true => rfl
  | false =>
    change Query.result (search name mode oracle rest >>= _) = _
    rw [Query.result_bind]
    rfl

theorem search_cons {probe : Probe} {rest : List Probe} {violations : List Violation} :
    (search name .allViolations oracle (probe :: rest)).result = .ok violations ↔
      ∃ found later, (probe oracle).result = .ok found ∧
        (search name .allViolations oracle rest).result = .ok later ∧
        violations = found ++ later := by
  rw [result_search_cons]
  cases (probe oracle).result with
  | error cause => simp [Except.bind]
  | ok found =>
    change (search name .allViolations oracle rest).result.map (found ++ ·) = _ ↔ _
    cases (search name .allViolations oracle rest).result with
    | error cause => simp [Except.map]
    | ok later => simp [Except.map, eq_comm]

theorem search_eq_nil {probes : List Probe} (h : ∀ probe ∈ probes, (probe oracle).result = .ok []) :
    (search name .allViolations oracle probes).result = .ok [] := by
  induction probes with
  | nil => rfl
  | cons probe rest ih =>
    refine search_cons.mpr ⟨[], [], h probe List.mem_cons_self, ih ?_, rfl⟩
    exact fun later hlater => h later (List.mem_cons_of_mem _ hlater)

/-- Each probe has an answer, and the report consists of the violations in these answers. -/
theorem mem_search {probes : List Probe} {violations : List Violation}
    (h : (search name .allViolations oracle probes).result = .ok violations) :
    (∀ probe ∈ probes, ∃ found, (probe oracle).result = .ok found ∧ ∀ v ∈ found, v ∈ violations) ∧
      ∀ v ∈ violations, ∃ probe ∈ probes, ∃ found,
        (probe oracle).result = .ok found ∧ v ∈ found := by
  induction probes generalizing violations with
  | nil =>
    cases h
    exact ⟨fun probe hprobe => absurd hprobe List.not_mem_nil,
      fun v hv => absurd hv List.not_mem_nil⟩
  | cons probe rest ih =>
    obtain ⟨found, later, hprobe, hrest, rfl⟩ := search_cons.mp h
    obtain ⟨hasked, hreported⟩ := ih hrest
    constructor
    · intro p hp
      rcases List.mem_cons.mp hp with rfl | hp
      · exact ⟨found, hprobe, fun v hv => List.mem_append_left _ hv⟩
      · obtain ⟨found', hfound', hsub⟩ := hasked p hp
        exact ⟨found', hfound', fun v hv => List.mem_append_right _ (hsub v hv)⟩
    · intro v hv
      rcases List.mem_append.mp hv with hv | hv
      · exact ⟨probe, List.mem_cons_self, found, hprobe, hv⟩
      · obtain ⟨p, hp, found', hfound', hv⟩ := hreported v hv
        exact ⟨p, List.mem_cons_of_mem _ hp, found', hfound', hv⟩

/-- If the probe of a place finds one violation where there is one and nothing
elsewhere, the report follows the places that have one. -/
theorem forall₂_search {ι : Type} {place : ι → Probe} {bad : ι → Bool}
    {Shows : ι → Violation → Prop} {places : List ι}
    (hplace : ∀ i ∈ places, ∀ found, (place i oracle).result = .ok found →
      if bad i then ∃ v, found = [v] ∧ Shows i v else found = [])
    {violations : List Violation}
    (h : (search name .allViolations oracle (places.map place)).result = .ok violations) :
    List.Forall₂ Shows (places.filter bad) violations := by
  induction places generalizing violations with
  | nil =>
    cases h
    exact .nil
  | cons i rest ih =>
    obtain ⟨found, later, hprobe, hrest, rfl⟩ := search_cons.mp h
    have hlater := ih (fun j hj => hplace j (List.mem_cons_of_mem _ hj)) hrest
    have hfound := hplace i List.mem_cons_self found hprobe
    cases hbad : bad i with
    | false =>
      rw [hbad, if_neg Bool.false_ne_true] at hfound
      rwa [hfound, List.filter_cons_of_neg (by simp [hbad])]
    | true =>
      rw [hbad, if_pos rfl] at hfound
      obtain ⟨v, rfl, hshows⟩ := hfound
      rw [List.filter_cons_of_pos hbad]
      exact .cons hshows hlater

/-- The pairs of members at different positions, by the first and then the second position. -/
def positionPairs {α : Type} (l : List α) : List (α × α) :=
  (List.finRange l.length).flatMap fun i =>
    ((List.finRange l.length).filter fun j => i < j).map fun j => (l.get i, l.get j)

theorem positionPairs_cons {α : Type} (a : α) (l : List α) :
    positionPairs (a :: l) = l.map (fun b => (a, b)) ++ positionPairs l := by
  have hget : (List.finRange l.length).map l.get = l := by
    rw [← List.ofFn_eq_map, List.ofFn_get]
  have hpositions : List.finRange (a :: l).length =
      (0 : Fin (l.length + 1)) :: (List.finRange l.length).map Fin.succ := List.finRange_succ
  unfold positionPairs
  rw [hpositions, List.flatMap_cons, List.flatMap_map]
  congr 1
  · rw [List.filter_cons_of_neg (by simp), List.filter_map]
    simp only [Function.comp_def, Fin.succ_pos, decide_true, List.filter_true, List.map_map]
    conv_rhs => rw [← hget, List.map_map]
    rfl
  · congr 1
    funext i
    rw [List.filter_cons_of_neg (by simp), List.filter_map]
    simp only [Function.comp_def, Fin.succ_lt_succ_iff, List.map_map]
    rfl

theorem positionPairs_eq_withRest {α : Type} (l : List α) :
    positionPairs l = (withRest l).flatMap fun (a, rest) => rest.map fun b => (a, b) := by
  induction l with
  | nil => rfl
  | cons a l ih => rw [positionPairs_cons, withRest, List.flatMap_cons, ih]

theorem mem_positionPairs {α : Type} {l : List α} {a b : α} :
    (a, b) ∈ positionPairs l ↔ ∃ rest, (a, rest) ∈ withRest l ∧ b ∈ rest := by
  rw [positionPairs_eq_withRest, List.mem_flatMap]
  constructor
  · rintro ⟨⟨c, rest⟩, hrest, hpair⟩
    obtain ⟨d, hd, heq⟩ := List.mem_map.mp hpair
    cases heq
    exact ⟨rest, hrest, hd⟩
  · rintro ⟨rest, hrest, hb⟩
    exact ⟨(a, rest), hrest, List.mem_map_of_mem hb⟩

theorem mem_of_mem_withRest {α : Type} {l rest : List α} {a : α} (h : (a, rest) ∈ withRest l) :
    a ∈ l := by
  induction l with
  | nil => exact absurd h List.not_mem_nil
  | cons b l ih =>
    rcases List.mem_cons.mp h with heq | h
    · cases heq
      exact List.mem_cons_self
    · exact List.mem_cons_of_mem b (ih h)

theorem exists_mem_withRest {α : Type} {l : List α} {a : α} (h : a ∈ l) :
    ∃ rest, (a, rest) ∈ withRest l := by
  induction l with
  | nil => exact absurd h List.not_mem_nil
  | cons b l ih =>
    rcases List.mem_cons.mp h with rfl | h
    · exact ⟨l, List.mem_cons_self⟩
    · obtain ⟨rest, hrest⟩ := ih h
      exact ⟨rest, List.mem_cons_of_mem _ hrest⟩

/-- Two members are at one position or make a pair, in one order or the other. -/
theorem eq_or_mem_positionPairs {α : Type} {l : List α} {a b : α} (ha : a ∈ l) (hb : b ∈ l) :
    a = b ∨ (a, b) ∈ positionPairs l ∨ (b, a) ∈ positionPairs l := by
  induction l with
  | nil => exact absurd ha List.not_mem_nil
  | cons c l ih =>
    simp only [positionPairs_cons, List.mem_append, List.mem_map, Prod.mk.injEq]
    rcases List.mem_cons.mp ha with rfl | hal
    · rcases List.mem_cons.mp hb with rfl | hbl
      · exact .inl rfl
      · exact .inr (.inl (.inl ⟨b, hbl, rfl, rfl⟩))
    · rcases List.mem_cons.mp hb with rfl | hbl
      · exact .inr (.inr (.inl ⟨a, hal, rfl, rfl⟩))
      · exact (ih hal hbl).imp id (Or.imp .inr .inr)

theorem mem_of_mem_positionPairs {α : Type} {l : List α} {a b : α}
    (h : (a, b) ∈ positionPairs l) : a ∈ l ∧ b ∈ l := by
  simp only [positionPairs, List.mem_flatMap, List.mem_map, Prod.mk.injEq] at h
  obtain ⟨i, -, j, -, rfl, rfl⟩ := h
  exact ⟨List.get_mem l i, List.get_mem l j⟩

theorem ne_of_mem_positionPairs {α β : Type} {f : α → β} {l : List α} (hnodup : (l.map f).Nodup)
    {a b : α} (h : (a, b) ∈ positionPairs l) : f a ≠ f b := by
  induction l with
  | nil => exact absurd h List.not_mem_nil
  | cons c l ih =>
    rw [List.map_cons, List.nodup_cons] at hnodup
    rw [positionPairs_cons, List.mem_append] at h
    rcases h with h | h
    · obtain ⟨d, hd, heq⟩ := List.mem_map.mp h
      cases heq
      intro hsame
      exact hnodup.1 (hsame ▸ List.mem_map_of_mem hd)
    · exact ih hnodup.2 h

end Verification

end GuardedMachines

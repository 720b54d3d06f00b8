import GuardedMachines.Proofs.Reordering
import GuardedMachines.Proofs.Verification.Loops

/-!
How many violations a search finds. A tally is the number that a search for all
violations reports wherever it comes to its end. Tallies add up along the list of
probes, so that the tally of a property is a sum over the places of the model. A
sum over a list, or over its pairs if the summands are symmetric, does not depend
on the order of the list.
-/

namespace GuardedMachines

open Classical in
noncomputable def countIf (P : Prop) (n : Nat) : Nat := if P then n else 0

theorem countIf_pos {P : Prop} (h : P) (n : Nat) : countIf P n = n := if_pos h

theorem countIf_neg {P : Prop} (h : ¬ P) (n : Nat) : countIf P n = 0 := if_neg h

theorem countIf_zero (P : Prop) : countIf P 0 = 0 := ite_self 0

def total {α : Type} (f : α → Nat) : List α → Nat
  | [] => 0
  | a :: l => f a + total f l

section Total

variable {α β : Type} {f g : α → Nat} {l l' : List α}

@[simp] theorem total_nil (f : α → Nat) : total f [] = 0 := rfl

@[simp] theorem total_cons (f : α → Nat) (a : α) (l : List α) :
    total f (a :: l) = f a + total f l := rfl

theorem total_append (f : α → Nat) (l l' : List α) :
    total f (l ++ l') = total f l + total f l' := by
  induction l with
  | nil => simp
  | cons a l ih => rw [List.cons_append, total_cons, total_cons, ih, Nat.add_assoc]

theorem total_map (f : β → Nat) (g : α → β) (l : List α) :
    total f (l.map g) = total (fun a => f (g a)) l := by
  induction l with
  | nil => rfl
  | cons a l ih => rw [List.map_cons, total_cons, total_cons, ih]

theorem total_flatMap (f : β → Nat) (g : α → List β) (l : List α) :
    total f (l.flatMap g) = total (fun a => total f (g a)) l := by
  induction l with
  | nil => rfl
  | cons a l ih => rw [List.flatMap_cons, total_append, ih, total_cons]

theorem total_eq_zero (h : ∀ a ∈ l, f a = 0) : total f l = 0 := by
  induction l with
  | nil => rfl
  | cons a l ih =>
    rw [total_cons, h a List.mem_cons_self, ih fun b hb => h b (List.mem_cons_of_mem _ hb)]

theorem total_congr (h : ∀ a ∈ l, f a = g a) : total f l = total g l := by
  induction l with
  | nil => rfl
  | cons a l ih =>
    rw [total_cons, total_cons, h a List.mem_cons_self,
      ih fun b hb => h b (List.mem_cons_of_mem _ hb)]

theorem total_add (f g : α → Nat) (l : List α) :
    total (fun a => f a + g a) l = total f l + total g l := by
  induction l with
  | nil => rfl
  | cons a l ih =>
    simp only [total_cons, ih]
    omega

theorem total_comm (f : α → β → Nat) (l : List α) (k : List β) :
    total (fun a => total (f a) k) l = total (fun b => total (fun a => f a b) l) k := by
  induction l with
  | nil =>
    induction k with
    | nil => rfl
    | cons b k ih => simpa using ih
  | cons a l ih => simp only [total_cons, ih, total_add]

theorem total_filter {p : α → Bool} (f : α → Nat) (h : ∀ a ∈ l, p a = false → f a = 0) :
    total f (l.filter p) = total f l := by
  induction l with
  | nil => rfl
  | cons a l ih =>
    have hrest := ih fun b hb => h b (List.mem_cons_of_mem _ hb)
    cases hp : p a with
    | true => rw [List.filter_cons_of_pos hp, total_cons, total_cons, hrest]
    | false =>
      rw [List.filter_cons_of_neg (by simp [hp]), hrest, total_cons,
        h a List.mem_cons_self hp, Nat.zero_add]

theorem total_perm (h : l.Perm l') (f : α → Nat) : total f l = total f l' := by
  induction h with
  | nil => rfl
  | cons a _ ih => rw [total_cons, total_cons, ih]
  | swap a b l =>
    simp only [total_cons]
    omega
  | trans _ _ ih ih' => exact ih.trans ih'

theorem ReorderedBy.total_eq {R : α → α → Prop} (h : ReorderedBy R l l')
    (hfg : ∀ a b, R a b → f a = g b) : total f l = total g l' := by
  have hvalues := total_perm (h.map_perm hfg) id
  rwa [total_map, total_map] at hvalues

end Total

namespace Verification

section Pairs

variable {α : Type} {w w' : α → α → Nat} {l l' : List α}

def pairTotal (w : α → α → Nat) (l : List α) : Nat := total (fun p => w p.1 p.2) (positionPairs l)

theorem pairTotal_cons (w : α → α → Nat) (a : α) (l : List α) :
    pairTotal w (a :: l) = total (w a) l + pairTotal w l := by
  rw [pairTotal, positionPairs_cons, total_append, total_map]
  rfl

theorem pairTotal_perm (hsymm : ∀ a b, w a b = w b a) (h : l.Perm l') :
    pairTotal w l = pairTotal w l' := by
  induction h with
  | nil => rfl
  | cons a hperm ih => rw [pairTotal_cons, pairTotal_cons, ih, total_perm hperm]
  | swap a b l =>
    simp only [pairTotal_cons, total_cons, hsymm a b]
    omega
  | trans _ _ ih ih' => exact ih.trans ih'

theorem pairTotal_reordered {R : α → α → Prop} (h : ReorderedBy R l l')
    (hsymm : ∀ a b, w a b = w b a)
    (hw : ∀ a a' b b', R a a' → R b b' → w a b = w' a' b') :
    pairTotal w l = pairTotal w' l' := by
  obtain ⟨mid, hperm, hrel⟩ := h
  rw [pairTotal_perm hsymm hperm]
  clear hperm
  induction hrel with
  | nil => rfl
  | cons hab hrest ih =>
    rw [pairTotal_cons, pairTotal_cons, ih]
    congr 1
    exact ReorderedBy.total_eq ⟨_, .refl _, hrest⟩ fun b b' hb => hw _ _ b b' hab hb

/-- A sum over the members, each with those after it, splits into one over the members and one
over the pairs. -/
theorem total_withRest (f : α → Nat) (w : α → α → Nat) (l : List α) :
    total (fun p => f p.1 + total (w p.1) p.2) (withRest l) = total f l + pairTotal w l := by
  induction l with
  | nil => rfl
  | cons a l ih =>
    rw [withRest, total_cons, total_cons, ih, pairTotal_cons]
    dsimp only
    omega

end Pairs

theorem search_append {name : String} {oracle : Oracle} {probes probes' : List Probe}
    {violations : List Violation}
    (h : (search name .allViolations oracle (probes ++ probes')).result = .ok violations) :
    ∃ found later, (search name .allViolations oracle probes).result = .ok found ∧
      (search name .allViolations oracle probes').result = .ok later ∧
      violations = found ++ later := by
  induction probes generalizing violations with
  | nil => exact ⟨[], violations, rfl, h, rfl⟩
  | cons probe rest ih =>
    obtain ⟨first, others, hfirst, hothers, rfl⟩ := search_cons.mp h
    obtain ⟨found, later, hfound, hlater, rfl⟩ := ih hothers
    exact ⟨first ++ found, later, search_cons.mpr ⟨first, found, hfirst, hfound, rfl⟩, hlater,
      (List.append_assoc _ _ _).symm⟩

/-- The number of violations that a search for all of them finds, if it comes to its end. -/
def Tally (oracle : Oracle) (probes : List Probe) (n : Nat) : Prop :=
  ∀ name violations, (search name .allViolations oracle probes).result = .ok violations →
    violations.length = n

namespace Tally

variable {oracle : Oracle} {probes probes' : List Probe} {n n' : Nat} {ι : Type} {l : List ι}
  {weight : ι → Nat}

theorem nil : Tally oracle [] 0 := by
  intro name violations h
  cases h
  rfl

theorem cons {probe : Probe}
    (hprobe : ∀ found, (probe oracle).result = .ok found → found.length = n)
    (h : Tally oracle probes n') : Tally oracle (probe :: probes) (n + n') := by
  intro name violations hsearch
  obtain ⟨found, later, hfound, hlater, rfl⟩ := search_cons.mp hsearch
  rw [List.length_append, hprobe found hfound, h name later hlater]

theorem single {probe : Probe}
    (hprobe : ∀ found, (probe oracle).result = .ok found → found.length = n) :
    Tally oracle [probe] n :=
  cons hprobe nil

theorem append (h : Tally oracle probes n) (h' : Tally oracle probes' n') :
    Tally oracle (probes ++ probes') (n + n') := by
  intro name violations hsearch
  obtain ⟨found, later, hfound, hlater, rfl⟩ := search_append hsearch
  rw [List.length_append, h name found hfound, h' name later hlater]

theorem flatMap {f : ι → List Probe} (h : ∀ a ∈ l, Tally oracle (f a) (weight a)) :
    Tally oracle (l.flatMap f) (total weight l) := by
  induction l with
  | nil => exact nil
  | cons a l ih =>
    rw [List.flatMap_cons, total_cons]
    exact (h a List.mem_cons_self).append (ih fun b hb => h b (List.mem_cons_of_mem _ hb))

theorem map {f : ι → Probe}
    (h : ∀ a ∈ l, ∀ found, (f a oracle).result = .ok found → found.length = weight a) :
    Tally oracle (l.map f) (total weight l) := by
  rw [List.map_eq_flatMap]
  exact flatMap fun a ha => single (h a ha)

theorem length_eq {property : Property} {model : Model} {report : Report}
    (h : Tally oracle (property.probes model) n)
    (hverify : (verify property model oracle .allViolations).result = .ok report) :
    report.violations.length = n :=
  h _ _ (verify_eq_ok hverify)

end Tally

end Verification

end GuardedMachines

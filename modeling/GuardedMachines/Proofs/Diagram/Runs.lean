import GuardedMachines.Proofs.Diagram.Ordering

/-!
Runs of operations on a store. Each operation is called on edges of the store
and on variables other than zero, and the run goes on with the store that the
call leaves, whether it succeeded or reached a bound. What one call keeps every
run keeps: the store stays valid, it only grows, and it stays ordered as long
as nodes are put above later edges.
-/

namespace GuardedMachines.Diagram

inductive Operation where
  | var (v : Nat)
  | literal (l : Int32)
  | clause (literals : List Int32)
  | node (v : Nat) (low high : Edge)
  | ite (f g h : Edge)
  | conj (f g : Edge)
  | disj (f g : Edge)

namespace Operation

def run (s : Store) : Operation → Outcome Edge
  | var v => s.mkVar v
  | literal l => s.mkLiteral l
  | clause literals => s.clause literals
  | node v low high => s.mkNode v low high
  | ite f g h => s.ite f g h
  | conj f g => s.conj f g
  | disj f g => s.disj f g

def Allowed (s : Store) : Operation → Prop
  | var v => v ≠ 0
  | literal l => l ≠ 0
  | clause literals => ∀ l ∈ literals, l ≠ 0
  | node v low high => v ≠ 0 ∧ s.Has low ∧ s.Has high
  | ite f g h => s.Has f ∧ s.Has g ∧ s.Has h
  | conj f g => s.Has f ∧ s.Has g
  | disj f g => s.Has f ∧ s.Has g

/-- A node made directly has a variable smaller than the top variable of each child
that is not terminal. -/
def InOrder (s : Store) : Operation → Prop
  | node v low high => s.After v low ∧ s.After v high
  | _ => True

def Over (V : Nat → Prop) : Operation → Prop
  | var v => V v
  | literal l => V (Word.magnitude l)
  | clause literals => ∀ l ∈ literals, V (Word.magnitude l)
  | node v _ _ => V v
  | _ => True

def denotes (s : Store) (ρ : Nat → Bool) : Operation → Bool
  | var v => ρ v
  | literal l => Store.literalValue ρ l
  | clause literals => literals.any (Store.literalValue ρ)
  | node v low high => if ρ v then s.value ρ high else s.value ρ low
  | ite f g h => if s.value ρ f then s.value ρ g else s.value ρ h
  | conj f g => s.value ρ f && s.value ρ g
  | disj f g => s.value ρ f || s.value ρ g

variable {s : Store} {op : Operation}

theorem run_denotes (hs : s.Valid) (hop : op.Allowed s) :
    s.Computes (op.run s) fun ρ => op.denotes s ρ := by
  cases op with
  | var v => exact hs.mkVar v
  | literal l => exact hs.mkLiteral l
  | clause literals => exact hs.clause literals
  | node v low high => exact hs.mkNode v hop.2.1 hop.2.2
  | ite f g h => exact hs.ite hop.1 hop.2.1 hop.2.2
  | conj f g => exact hs.conj hop.1 hop.2
  | disj f g => exact hs.disj hop.1 hop.2

/-- Every call keeps the store valid and computes some function. -/
theorem run_computes (hs : s.Valid) (hop : op.Allowed s) : ∃ φ, s.Computes (op.run s) φ :=
  ⟨_, run_denotes hs hop⟩

theorem Allowed.over (hop : op.Allowed s) : op.Over (· ≠ 0) := by
  cases op with
  | var v => exact hop
  | literal l => exact Word.magnitude_ne_zero hop
  | clause literals => exact fun l hl => Word.magnitude_ne_zero (hop l hl)
  | node v low high => exact hop.1
  | ite f g h => trivial
  | conj f g => trivial
  | disj f g => trivial

theorem Over.mono {V W : Nat → Prop} (h : op.Over V) (hVW : ∀ v, V v → W v) : op.Over W := by
  cases op with
  | var v => exact hVW v h
  | literal l => exact hVW _ h
  | clause literals => exact fun l hl => hVW _ (h l hl)
  | node v low high => exact hVW v h
  | ite f g h => trivial
  | conj f g => trivial
  | disj f g => trivial

theorem Over.and {V W : Nat → Prop} (h : op.Over V) (h' : op.Over W) :
    op.Over fun v => V v ∧ W v := by
  cases op with
  | var v => exact ⟨h, h'⟩
  | literal l => exact ⟨h, h'⟩
  | clause literals => exact fun l hl => ⟨h l hl, h' l hl⟩
  | node v low high => exact ⟨h, h'⟩
  | ite f g h => trivial
  | conj f g => trivial
  | disj f g => trivial

/-- Every call that respects the order and stays in the set of variables keeps the store ordered. -/
theorem run_ordered {V : Nat → Prop} (hs : s.Valid) (ho : s.Ordered V) (hop : op.Allowed s)
    (horder : op.InOrder s) (hover : op.Over V) : (op.run s).2.Ordered V := by
  cases op with
  | var v => exact (ho.mkVar hs hover).ordered
  | literal l => exact (ho.mkLiteral hs hover).ordered
  | clause literals => exact ho.clause hs hover
  | node v low high =>
    exact (ho.mkNode hs hop.2.1 hop.2.2 hover horder.1 horder.2).ordered
  | ite f g h => exact ho.ite hs hop.1 hop.2.1 hop.2.2
  | conj f g => exact ho.ite hs hop.1 hop.2 hs.has_zero
  | disj f g => exact ho.ite hs hop.1 hs.has_one hop.2

end Operation

/-- The second store is left by a finite sequence of calls that starts on the first. -/
inductive Runs (ok : Store → Operation → Prop) (s : Store) : Store → Prop
  | start : Runs ok s s
  | call {s' : Store} (before : Runs ok s s') (op : Operation) (hop : ok s' op) :
      Runs ok s (op.run s').2

def OrderedCall (s : Store) (op : Operation) : Prop := op.Allowed s ∧ op.InOrder s

namespace Runs

variable {ok : Store → Operation → Prop} {s s' : Store}

theorem valid_grown (h : Runs ok s s') (hok : ∀ s op, ok s op → op.Allowed s) (hs : s.Valid) :
    s'.Valid ∧ s.Extends s' := by
  induction h with
  | start => exact ⟨hs, .refl s⟩
  | call before op hop ih =>
    obtain ⟨hvalid, hgrown⟩ := ih
    obtain ⟨φ, hcall⟩ := Operation.run_computes hvalid (hok _ op hop)
    exact ⟨hcall.valid, hgrown.trans hcall.grown⟩

theorem ordered_over {V : Nat → Prop} (h : Runs ok s s')
    (hok : ∀ s op, ok s op → OrderedCall s op ∧ op.Over V) (hs : s.Valid) (ho : s.Ordered V) :
    s'.Ordered V := by
  induction h with
  | start => exact ho
  | call before op hop ih =>
    have hvalid := (before.valid_grown (fun s op hcall => (hok s op hcall).1.1) hs).1
    obtain ⟨hcall, hover⟩ := hok _ op hop
    exact Operation.run_ordered hvalid ih hcall.1 hcall.2 hover

theorem ordered (h : Runs OrderedCall s s') (hs : s.Valid) (ho : s.Ordered (· ≠ 0)) :
    s'.Ordered (· ≠ 0) :=
  h.ordered_over (fun _ _ hcall => ⟨hcall, hcall.1.over⟩) hs ho

end Runs

theorem Store.Layered.toNat_ofNat {s : Store} (hs : s.Layered) {i : Nat} {n : Node}
    (hn : s.nodes[i]? = some n) : (UInt32.ofNat i).toNat = i :=
  UInt32.toNat_ofNat_of_lt (Nat.lt_trans (hs.lt_of_getElem? hn) (by decide))

/-- The table of nodes knows every node under its index. -/
theorem Store.Valid.unique_ofNat {s : Store} (hs : s.Valid) {i : Nat} {n : Node} (hi : 2 ≤ i)
    (hn : s.nodes[i]? = some n) : s.unique[n]? = some (.ofNat i) := by
  rw [hs.unique_iff, hs.toNat_ofNat hn]
  exact ⟨hi, hn⟩

/-- Two indices of equal nodes are equal, because the table of nodes knows one of them. -/
theorem Store.Valid.index_unique {s : Store} (hs : s.Valid) {i j : Nat} {n : Node} (hi : 2 ≤ i)
    (hj : 2 ≤ j) (hni : s.nodes[i]? = some n) (hnj : s.nodes[j]? = some n) : i = j := by
  have hsecond := hs.unique_ofNat hj hnj
  rw [hs.unique_ofNat hi hni] at hsecond
  rw [← hs.toNat_ofNat hni, Option.some.inj hsecond, hs.toNat_ofNat hnj]

end GuardedMachines.Diagram

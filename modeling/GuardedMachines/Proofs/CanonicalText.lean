import GuardedMachines.Proofs.Condition.Derivation
import GuardedMachines.Proofs.Flattening
import GuardedMachines.Proofs.TableRuns

/-!
The canonical text tells a formula up to the grouping of its chains. A flattened
formula can be written out as well, an operand list with its connective between
the operands, and a formula has the text of its flattened form. Conversely equal
texts write the same symbols, and the grammar derives these in one way, so that
the formulas differ in grouping only. There is no limit on the nesting here: a
text that is nested too deep to be read still stands for one formula.
-/

namespace GuardedMachines

/-- Two separated lists of pieces, with a separator between them, are one. -/
theorem intercalate_append {α : Type} (separator : List α) {pieces pieces' : List (List α)}
    (h : pieces ≠ []) (h' : pieces' ≠ []) :
    separator.intercalate (pieces ++ pieces') =
      separator.intercalate pieces ++ separator ++ separator.intercalate pieces' := by
  induction pieces with
  | nil => exact absurd rfl h
  | cons piece rest ih => cases rest with
    | nil =>
      rw [List.singleton_append, List.intercalate_cons_of_ne_nil h', List.intercalate_singleton]
    | cons next rest =>
      have hrest := List.cons_ne_nil next rest
      have hboth := List.append_ne_nil_of_left_ne_nil hrest pieces'
      rw [List.cons_append, List.intercalate_cons_of_ne_nil hboth, ih hrest,
        List.intercalate_cons_of_ne_nil hrest]
      simp only [List.append_assoc]

namespace Flat

variable {α : Type}

def belowNeg (x : Flat α) (written : List Char) : List Char :=
  match x with
  | atom _ => written
  | _ => Spelling.parenthesized written

def belowConj (x : Flat α) (written : List Char) : List Char :=
  match x with
  | any _ => Spelling.parenthesized written
  | _ => written

mutual

def render (spell : α → List Char) : Flat α → List Char
  | atom a => spell a
  | neg x => Spelling.parenthesized (Spelling.neg ++ ' ' :: x.belowNeg (x.render spell))
  | all operands =>
    (Spelling.spaced Spelling.conj).intercalate (renderEach spell belowConj operands)
  | any operands =>
    (Spelling.spaced Spelling.disj).intercalate
      (renderEach spell (fun _ written => written) operands)

/-- The operands written out, each as it stands below the connective. -/
def renderEach (spell : α → List Char) (below : Flat α → List Char → List Char) :
    List (Flat α) → List (List Char)
  | [] => []
  | x :: rest => below x (x.render spell) :: renderEach spell below rest

end

variable (spell : α → List Char) (below : Flat α → List Char → List Char)

theorem renderEach_append (operands operands' : List (Flat α)) :
    renderEach spell below (operands ++ operands') =
      renderEach spell below operands ++ renderEach spell below operands' := by
  induction operands with
  | nil => rfl
  | cons x rest ih => rw [List.cons_append, renderEach, ih, renderEach, List.cons_append]

theorem renderEach_ne_nil {operands : List (Flat α)} (h : operands ≠ []) :
    renderEach spell below operands ≠ [] := by
  cases operands with
  | nil => exact absurd rfl h
  | cons x rest => exact List.cons_ne_nil _ _

theorem render_conjuncts (x : Flat α) :
    (Spelling.spaced Spelling.conj).intercalate (renderEach spell belowConj x.conjuncts) =
      x.belowConj (x.render spell) := by
  cases x with
  | all operands => rfl
  | _ => exact List.intercalate_singleton

theorem render_disjuncts (x : Flat α) :
    (Spelling.spaced Spelling.disj).intercalate
      (renderEach spell (fun _ written => written) x.disjuncts) = x.render spell := by
  cases x with
  | any operands => rfl
  | _ => exact List.intercalate_singleton

end Flat

namespace Formula

variable {α : Type} {key : Variable → α} {spell : α → List Char} {f g : Formula}

theorem conjuncts_flatten_ne_nil (key : Variable → α) (f : Formula) :
    (f.flatten key).conjuncts ≠ [] := by
  induction f with
  | conj p q ihp ihq => exact List.append_ne_nil_of_left_ne_nil ihp _
  | _ => exact List.cons_ne_nil _ _

theorem disjuncts_flatten_ne_nil (key : Variable → α) (f : Formula) :
    (f.flatten key).disjuncts ≠ [] := by
  induction f with
  | disj p q ihp ihq => exact List.append_ne_nil_of_left_ne_nil ihp _
  | _ => exact List.cons_ne_nil _ _

/-- Flattening keeps the outermost connective. -/
theorem belowNeg_flatten (key : Variable → α) (f : Formula) :
    (f.flatten key).belowNeg = f.belowNeg := by
  cases f <;> rfl

theorem belowConj_flatten (key : Variable → α) (f : Formula) :
    (f.flatten key).belowConj = f.belowConj := by
  cases f <;> rfl

/-- A formula is written as its flattened form is, whatever its variables are known by. -/
theorem render_flatten (h : ∀ v ∈ f.atoms, spell (key v) = v.name.toList) :
    (f.flatten key).render spell = f.render := by
  induction f with
  | atom v => exact h v List.mem_cons_self
  | neg f ih => rw [flatten, Flat.render, ih h, belowNeg_flatten, render]
  | conj p q ihp ihq =>
    obtain ⟨hp, hq⟩ := List.forall_mem_append.mp h
    rw [flatten, Flat.render, Flat.renderEach_append,
      intercalate_append _ (Flat.renderEach_ne_nil _ _ (conjuncts_flatten_ne_nil key p))
        (Flat.renderEach_ne_nil _ _ (conjuncts_flatten_ne_nil key q)),
      Flat.render_conjuncts, Flat.render_conjuncts, ihp hp, ihq hq, belowConj_flatten,
      belowConj_flatten, render]
  | disj p q ihp ihq =>
    obtain ⟨hp, hq⟩ := List.forall_mem_append.mp h
    rw [flatten, Flat.render, Flat.renderEach_append,
      intercalate_append _ (Flat.renderEach_ne_nil _ _ (disjuncts_flatten_ne_nil key p))
        (Flat.renderEach_ne_nil _ _ (disjuncts_flatten_ne_nil key q)),
      Flat.render_disjuncts, Flat.render_disjuncts, ihp hp, ihq hq, render]

/-- Formulas with equal flattened forms have equal texts, if a variable can be spelled from what
it is known by. -/
theorem text_eq_of_flatten_eq (spell : α → List Char)
    (hspell : ∀ v ∈ f.atoms ++ g.atoms, spell (key v) = v.name.toList)
    (h : f.flatten key = g.flatten key) : f.text = g.text := by
  obtain ⟨hf, hg⟩ := List.forall_mem_append.mp hspell
  rw [text, text, ← render_flatten hf, ← render_flatten hg, h]

/-- Formulas with equal texts differ in the grouping of their chains only. -/
theorem regrouped_of_text_eq {ν : String → Variable} (hf : Condition.NamedBy ν f)
    (hg : Condition.NamedBy ν g) (h : f.text = g.text) : f.Regrouped g := by
  obtain ⟨-, p, hp⟩ := Condition.exists_renders ν f hf
  obtain ⟨-, q, hq⟩ := Condition.exists_renders ν g hg
  have hrender : f.render = g.render := String.ofList_injective h
  have hsymbols : p.symbols = q.symbols := by
    have hwritten := hp.written
    rw [hrender] at hwritten
    exact hwritten.unique hq.written
  obtain rfl := Condition.Phrase.eq_of_symbols_eq hsymbols
  exact hp.regrouped.symm.trans hq.regrouped

end Formula

/-- The variables of a table can be spelled from their identifiers. -/
theorem VariableTable.WellFormed.exists_spelling {table : VariableTable} (h : table.WellFormed) :
    ∃ spell : VarId → List Char,
      ∀ v, table.get? v.name = some v → spell v.id = v.name.toList := by
  refine ⟨fun id => ((table.vars.find? fun v => v.id == id).map (·.name.toList)).getD [], ?_⟩
  intro v hv
  have hmem := List.mem_of_find?_eq_some hv
  cases hfind : table.vars.find? fun w : Variable => w.id == v.id with
  | none => exact absurd (beq_self_eq_true v.id) (List.find?_eq_none.mp hfind v hmem)
  | some w =>
    have hid : (w.id == v.id) = true :=
      List.find?_some (p := fun w : Variable => w.id == v.id) hfind
    have hw := h.found w (List.mem_of_find?_eq_some hfind)
    have hname := (h.beq_iff_name hw hv).mp hid
    dsimp only
    rw [hfind]
    exact congrArg String.toList hname

/-- The text of a formula over one table identifies it up to the grouping of its chains. Texts
are equal exactly if the flattened formulas are, whether their variables are compared as such or
by identifier, and then the formulas have the same value under every valuation. -/
theorem text_eq_iff_flatten_eq (table : VariableTable) (htable : table.WellFormed)
    (f g : Formula) (hreadable : ∀ v ∈ f.atoms ++ g.atoms, Condition.Readable table v) :
    (f.text = g.text ↔ f.flatten id = g.flatten id) ∧
    (f.text = g.text ↔ f.flatten Variable.id = g.flatten Variable.id) ∧
    (f.text = g.text → ∀ valuation, f.eval valuation = g.eval valuation) := by
  obtain ⟨hf, hg⟩ := List.forall_mem_append.mp hreadable
  have hregrouped : f.text = g.text → f.Regrouped g :=
    Formula.regrouped_of_text_eq (Condition.namedBy_of_readable hf)
      (Condition.namedBy_of_readable hg)
  obtain ⟨spell, hspell⟩ := htable.exists_spelling
  refine ⟨⟨?_, ?_⟩, ⟨?_, ?_⟩, ?_⟩
  · exact fun h => (hregrouped h).flatten_eq id
  · exact Formula.text_eq_of_flatten_eq (fun v => v.name.toList) fun v _ => rfl
  · exact fun h => (hregrouped h).flatten_eq Variable.id
  · exact Formula.text_eq_of_flatten_eq spell fun v hv => hspell v (hreadable v hv).known
  · exact fun h => (hregrouped h).eval_eq

/-- Two groupings of one chain below a negation and above it have one text; a disjunction below a
conjunction and one above it have different texts, though they mention the same variables. -/
theorem text_eq_iff_flatten_eq_of_chains :
    let a : Variable := ⟨⟨1, Nat.one_pos⟩, "A", .boolean⟩
    let b : Variable := ⟨⟨2, Nat.two_pos⟩, "B", .boolean⟩
    let f : Formula := .conj (.conj (.atom a) (.neg (.disj (.atom b) (.disj (.atom a) (.atom b)))))
      (.disj (.atom b) (.atom a))
    let g : Formula := .conj (.atom a) (.conj (.neg (.disj (.disj (.atom b) (.atom a)) (.atom b)))
      (.disj (.atom b) (.atom a)))
    let h : Formula := .disj (.conj (.atom a) (.conj
      (.neg (.disj (.disj (.atom b) (.atom a)) (.atom b))) (.atom b))) (.atom a)
    (∀ v ∈ f.atoms ++ (g.atoms ++ h.atoms), Condition.Readable ⟨[a, b]⟩ v) ∧
    f ≠ g ∧ f.text = "A ET (NON (B OU A OU B)) ET (B OU A)" ∧ f.text = g.text ∧
    f.flatten Variable.id = g.flatten Variable.id ∧
    (∀ valuation, f.eval valuation = g.eval valuation) ∧
    f.text ≠ h.text ∧ f.flatten Variable.id ≠ h.flatten Variable.id := by
  intro a b f g h
  have htable : (⟨[a, b]⟩ : VariableTable).WellFormed := by
    refine ⟨rfl, ?_⟩
    intro v hv
    simp only [List.mem_cons, List.not_mem_nil, or_false] at hv
    rcases hv with rfl | rfl <;> rfl
  have ha : Condition.Readable ⟨[a, b]⟩ a := ⟨rfl, rfl, Condition.isIdentifier_letter⟩
  have hb : Condition.Readable ⟨[a, b]⟩ b :=
    ⟨rfl, rfl, by decide, List.all_eq_true.mp (by decide), by decide⟩
  have hreadable : ∀ v ∈ f.atoms ++ (g.atoms ++ h.atoms), Condition.Readable ⟨[a, b]⟩ v := by
    intro v hv
    have hsubset : f.atoms ++ (g.atoms ++ h.atoms) ⊆ [a, b] := by simp [f, g, h, Formula.atoms]
    have hmem := hsubset hv
    simp only [List.mem_cons, List.not_mem_nil, or_false] at hmem
    rcases hmem with rfl | rfl
    · exact ha
    · exact hb
  obtain ⟨hf, hgh⟩ := List.forall_mem_append.mp hreadable
  obtain ⟨hg, hh⟩ := List.forall_mem_append.mp hgh
  have hsame := text_eq_iff_flatten_eq _ htable f g (List.forall_mem_append.mpr ⟨hf, hg⟩)
  have hother := text_eq_iff_flatten_eq _ htable f h (List.forall_mem_append.mpr ⟨hf, hh⟩)
  have hne : f ≠ g := by
    intro heq
    cases (Formula.conj.inj heq).1
  have htext : f.text = g.text := by decide
  have htext' : f.text ≠ h.text := by decide
  exact ⟨hreadable, hne, by decide, htext, hsame.2.1.mp htext, hsame.2.2 htext, htext',
    fun hflatten => htext' (hother.2.1.mpr hflatten)⟩

end GuardedMachines

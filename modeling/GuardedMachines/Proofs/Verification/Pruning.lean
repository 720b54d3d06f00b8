import GuardedMachines.Proofs.Verification.Counts

/-!
The activation only saves work. One step after a transition the verification of
coherent writing tries the transitions of those machines that the activation
links to its machine. A machine that is left out has no transition that could be
triggered, so trying it would ask no question; the machines that are kept stand
in the order of the model. Trying all other machines therefore asks the same
questions in the same order, and ends in the same way.
-/

namespace GuardedMachines.Verification.CoherentWriting

def others (model : Model) (m : Machine) : List Machine :=
  model.machines.filter fun n => n.name != m.name

/-- Verification of coherent writing that tries all other machines one step later. -/
def verifyExhaustively (model : Model) (oracle : Oracle) (mode : Mode) : Query Report := do
  Traced.notes (Property.coherentWriting.preamble model)
  let reported ←
    checkWith (.push Property.coherentWriting.name mode) oracle (others model) model []
  return ⟨.coherentWriting, reported.value⟩

variable {model : Model} {first : Site} {machines : List Machine}

theorem propagationProbes_eq_nil {followers : List Site}
    (h : ∀ second ∈ followers, ¬ first.transition.Triggers second.transition) :
    propagationProbes first followers = [] := by
  rw [List.eq_nil_iff_forall_not_mem]
  intro probe hprobe
  obtain ⟨second, guard, hsecond, htriggers, -⟩ := mem_propagationProbes.mp hprobe
  exact h second hsecond htriggers

theorem propagationProbes_append (followers followers' : List Site) :
    propagationProbes first (followers ++ followers') =
      propagationProbes first followers ++ propagationProbes first followers' :=
  List.filterMap_append

/-- Machines without a transition that is triggered may be left out. -/
theorem propagationProbes_filter {keep : Machine → Bool}
    (h : ∀ n ∈ machines, keep n = false → ∀ u ∈ n.transitions, ¬ first.transition.Triggers u) :
    propagationProbes first ((machines.filter keep).flatMap sites) =
      propagationProbes first (machines.flatMap sites) := by
  induction machines with
  | nil => rfl
  | cons n rest ih =>
    have hrest := ih fun n' hn' => h n' (List.mem_cons_of_mem _ hn')
    cases hkeep : keep n with
    | true =>
      rw [List.filter_cons_of_pos hkeep, List.flatMap_cons, List.flatMap_cons,
        propagationProbes_append, propagationProbes_append, hrest]
    | false =>
      have hnone : propagationProbes first (sites n) = [] := by
        apply propagationProbes_eq_nil
        intro second hsecond
        obtain ⟨u, hu, rfl⟩ := mem_sites.mp hsecond
        exact h n List.mem_cons_self hkeep u hu
      rw [List.filter_cons_of_neg (by simp [hkeep]), List.flatMap_cons, propagationProbes_append,
        hnone, hrest, List.nil_append]

/-- Whatever machines are left out, the questions are the same as long as none of them could
be triggered. -/
theorem probesWith_filter {keep : Machine → Machine → Bool}
    (h : ∀ m ∈ model.machines, ∀ n ∈ model.machines, ∀ t ∈ m.transitions, ∀ u ∈ n.transitions,
      t.Triggers u → keep m n = true) :
    probesWith (fun m => (others model m).filter (keep m)) model =
      probesWith (others model) model := by
  apply List.flatMap_congr
  rintro ⟨m, later⟩ hrest
  have hm : m ∈ model.machines := mem_of_mem_withRest hrest
  apply List.flatMap_congr
  intro t ht
  have hreacting :
      propagationProbes ⟨m.name, t⟩ (((others model m).filter (keep m)).flatMap sites) =
        propagationProbes ⟨m.name, t⟩ ((others model m).flatMap sites) := by
    apply propagationProbes_filter
    intro n hn hleft u hu htriggers
    have hkept := h m hm n (List.mem_filter.mp hn).1 t ht u hu htriggers
    exact absurd (hleft.symm.trans hkept) Bool.false_ne_true
  unfold transitionProbes followers
  dsimp only
  rw [propagationProbes_append, propagationProbes_append, hreacting]

/-- The machines that the activation links are enough. -/
theorem probes_eq_exhaustive (hnames : model.machineNames.Nodup) :
    probes model = probesWith (others model) model := by
  let activation := Activation.ofModel model
  let linked (m n : Machine) : Bool :=
    activation.arcs.any fun arc => arc.source == m.name && arc.target == n.name
  have hreacting : reacting model activation = fun m => (others model m).filter (linked m) := by
    funext m
    exact reacting_eq hnames activation rfl m
  have hlinked : ∀ m ∈ model.machines, ∀ n ∈ model.machines, ∀ t ∈ m.transitions,
      ∀ u ∈ n.transitions, t.Triggers u → linked m n = true := by
    rintro m hm n hn t ht u hu ⟨a, ha, hevent⟩
    exact (List.mem_filter.mp (Activation.mem_successors hm hn ht hu ha hevent)).2
  calc probes model = probesWith (reacting model activation) model := rfl
    _ = probesWith (fun m => (others model m).filter (linked m)) model := by rw [hreacting]
    _ = probesWith (others model) model := probesWith_filter hlinked

/-- Where machine names are all different, verification of coherent writing ends as it does
if all other machines are tried one step later: in the same report with the same witnesses or
in the same failure of the oracle, and with the same records on the way. -/
theorem verify_coherentWriting_exhaustive (model : Model) (hnames : model.machineNames.Nodup)
    (oracle : Oracle) (mode : Mode) :
    verify .coherentWriting model oracle mode = verifyExhaustively model oracle mode := by
  unfold verify verifyExhaustively
  rw [Property.check_follows .coherentWriting model [] mode.isDone_nil, Property.probes,
    probes_eq_exhaustive hnames, checkWith_follows (others model) model [] mode.isDone_nil]

/-- One machine sets a variable, a second one resets it when it is set, and a third one resets
it on an event from outside. The third one is not linked to the first one, and trying it one step
later as well finds nothing more. -/
theorem verify_coherentWriting_exhaustive_on_reset :
    let x : Variable := ⟨⟨1, Nat.one_pos⟩, "X", .boolean⟩
    let t : Transition := ⟨"s", "s", ⟨[.external "go"]⟩, none, ⟨[.assign x (.ofBool true)]⟩⟩
    let u : Transition := ⟨"s", "s", ⟨[.change x (.ofBool true)]⟩, some (.atom x),
      ⟨[.assign x (.ofBool false)]⟩⟩
    let w : Transition := ⟨"s", "s", ⟨[.external "stop"]⟩, none, ⟨[.assign x (.ofBool false)]⟩⟩
    let m : Machine := ⟨"m", [⟨"s", [t]⟩]⟩
    let model : Model := ⟨"model", [m, ⟨"n", [⟨"s", [u]⟩]⟩, ⟨"o", [⟨"s", [w]⟩]⟩]⟩
    let oracle : Oracle := .diagram ⟨none, 10⟩ .stopped
    let violations : List Violation := [.propagatedWrites x ⟨"m", t⟩ ⟨"n", u⟩ ⟨[]⟩]
    model.machineNames.Nodup ∧
      (reacting model (.ofModel model) m).map Machine.name = ["n"] ∧
      (others model m).map Machine.name = ["n", "o"] ∧
      (verify .coherentWriting model oracle .allViolations).result =
        .ok ⟨.coherentWriting, violations⟩ ∧
      (verifyExhaustively model oracle .allViolations).result =
        .ok ⟨.coherentWriting, violations⟩ := by
  intro x t u w m model oracle violations
  have hnames : model.machineNames.Nodup := by decide
  have hverify : (verify .coherentWriting model oracle .allViolations).result =
      .ok ⟨.coherentWriting, violations⟩ := by decide +kernel
  refine ⟨hnames, by decide +kernel, by decide, hverify, ?_⟩
  rw [← verify_coherentWriting_exhaustive model hnames oracle .allViolations]
  exact hverify

end GuardedMachines.Verification.CoherentWriting

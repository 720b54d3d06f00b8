import GuardedMachines.Proofs.Verification.Run

/-!
Looking for the first violation only and looking for all of them agree. The two
searches go along the same probes until something is found, so the first one ends
like the second one or with the first violation of the second one. Runs over a
list of properties go along with this, property by property: both succeed, or
both stop with the same cause, or the shorter one ends with the property at which
the longer one meets its first violation.
-/

namespace GuardedMachines.Verification

variable {name : String} {oracle : Oracle} {model : Model}

inductive Agree : Except Exhaustion (List Violation) → Except Exhaustion (List Violation) → Prop
  | exhausted (cause : Exhaustion) : Agree (.error cause) (.error cause)
  | none : Agree (.ok []) (.ok [])
  | found {v : Violation} {all : Except Exhaustion (List Violation)}
      (first : ∀ violations, all = .ok violations → violations.head? = some v) :
      Agree (.ok [v]) all

theorem search_agree (probes : List Probe) :
    Agree (search name .firstViolation oracle probes).result
      (search name .allViolations oracle probes).result := by
  induction probes with
  | nil => exact .none
  | cons probe rest ih =>
    rw [result_search_cons, result_search_cons]
    cases (probe oracle).result with
    | error cause => exact .exhausted cause
    | ok found => cases found with
      | nil =>
        -- Nothing found here: both searches go on, and they return what they find later.
        have hlater : ∀ result : Except Exhaustion (List Violation),
            result.map ([] ++ ·) = result := by
          intro result
          cases result <;> rfl
        change Agree ((search name .firstViolation oracle rest).result.map ([] ++ ·))
          ((search name .allViolations oracle rest).result.map ([] ++ ·))
        rw [hlater, hlater]
        exact ih
      | cons v found =>
        change Agree (.ok [v])
          ((search name .allViolations oracle rest).result.map (v :: found ++ ·))
        refine .found fun violations h => ?_
        cases hrest : (search name .allViolations oracle rest).result with
        | error cause =>
          rw [hrest] at h
          cases h
        | ok later =>
          rw [hrest] at h
          cases h
          rfl

theorem verify_agree (oracle : Oracle) (model : Model) (property : Property) :
    ∃ first all, Agree first all ∧
      (verify property model oracle .firstViolation).result = first.map (Report.mk property) ∧
      (verify property model oracle .allViolations).result = all.map (Report.mk property) :=
  ⟨_, _, search_agree _, result_verify _ _ _, result_verify _ _ _⟩

/-- A run for one violation beside the run for all of them, over the same properties. -/
inductive Parallel : List Property → Run → Run → Prop
  | finished : Parallel [] ⟨.success, []⟩ ⟨.success, []⟩
  | aborted {property : Property} {rest : List Property} (cause : Exhaustion) :
      Parallel (property :: rest) ⟨.aborted cause, []⟩ ⟨.aborted cause, []⟩
  | failed {property : Property} {rest : List Property} {v : Violation} {all : Run}
      (status : all.status ≠ .success)
      (first : ∀ report, all.reports.head? = some report →
        report.property = property ∧ report.violations.head? = some v) :
      Parallel (property :: rest) ⟨.failed, [⟨property, [v]⟩]⟩ all
  | passed {property : Property} {rest : List Property} {first all : Run}
      (later : Parallel rest first all) :
      Parallel (property :: rest) ⟨first.status, ⟨property, []⟩ :: first.reports⟩
        ⟨all.status, ⟨property, []⟩ :: all.reports⟩

theorem Goes.meets_violation {property : Property} {rest : List Property} {run : Run}
    {v : Violation} (h : Goes oracle model .allViolations (property :: rest) run)
    (hfirst : ∀ report, (verify property model oracle .allViolations).result = .ok report →
      report.property = property ∧ report.violations.head? = some v) :
    run.status ≠ .success ∧ ∀ report, run.reports.head? = some report →
      report.property = property ∧ report.violations.head? = some v := by
  cases h with
  | aborted verified => exact ⟨nofun, nofun⟩
  | ended verified done => cases done
  | @continued _ _ report run verified undone later =>
    obtain ⟨hproperty, hhead⟩ := hfirst report verified
    have hpassed : report.passed = false := by
      rw [Report.passed, List.isEmpty_eq_false_iff]
      intro hnil
      rw [hnil] at hhead
      cases hhead
    constructor
    · rw [hpassed]
      exact run.status.afterFailure_ne_success
    · intro report' hreport'
      cases hreport'
      exact ⟨hproperty, hhead⟩

theorem runFrom_parallel (properties : List Property) :
    Parallel properties (Verifier.runFrom oracle model .firstViolation properties).value
      (Verifier.runFrom oracle model .allViolations properties).value := by
  induction properties with
  | nil => exact .finished
  | cons property rest ih =>
    have hfirst := goes_runFrom oracle model .firstViolation
    have hall := goes_runFrom oracle model .allViolations
    obtain ⟨one, all, hagree, hone, hmany⟩ := verify_agree oracle model property
    cases hagree with
    | exhausted cause =>
      rw [(hfirst _).unique (.aborted hone), (hall _).unique (.aborted hmany)]
      exact .aborted cause
    | none =>
      rw [(hfirst _).unique (.continued hone rfl (hfirst rest)),
        (hall _).unique (.continued hmany rfl (hall rest))]
      exact .passed ih
    | @found v _ first =>
      rw [(hfirst _).unique (.ended hone rfl)]
      have hreport : ∀ report, (verify property model oracle .allViolations).result = .ok report →
          report.property = property ∧ report.violations.head? = some v := by
        intro report hreport
        rw [hmany] at hreport
        cases all with
        | error cause => cases hreport
        | ok violations =>
          cases hreport
          exact ⟨rfl, first violations rfl⟩
      obtain ⟨hstatus, hhead⟩ := (hall (property :: rest)).meets_violation hreport
      exact .failed hstatus hhead

namespace Parallel

variable {properties : List Property} {first all : Run}

theorem success_iff (h : Parallel properties first all) :
    first.status = .success ↔ all.status = .success := by
  induction h with
  | finished => exact Iff.rfl
  | aborted cause => exact Iff.rfl
  | failed status _ => exact iff_of_false nofun status
  | passed _ ih => exact ih

/-- Unless the shorter run ends with a violation, the runs are the same. -/
theorem eq_of_status_ne_failed (h : Parallel properties first all)
    (hstatus : first.status ≠ .failed) : first = all := by
  induction h with
  | finished => rfl
  | aborted cause => rfl
  | failed _ _ => exact absurd rfl hstatus
  | passed _ ih => rw [ih hstatus]

theorem reports_of_failed (h : Parallel properties first all) (hstatus : first.status = .failed) :
    ∃ before last v, first.reports = before ++ [last] ∧
      (∀ report ∈ before, report.passed = true) ∧ before <+: all.reports ∧
      properties[before.length]? = some last.property ∧ last.violations = [v] ∧
      ∀ report, all.reports[before.length]? = some report →
        report.property = last.property ∧ report.violations.head? = some v := by
  induction h with
  | finished => cases hstatus
  | aborted cause => cases hstatus
  | @failed property rest v all _ first =>
    refine ⟨[], ⟨property, [v]⟩, v, rfl, nofun, List.nil_prefix, rfl, rfl, fun report hreport => ?_⟩
    exact first report (List.head?_eq_getElem? ▸ hreport)
  | @passed property rest first all later ih =>
    obtain ⟨before, last, v, hreports, hpassed, hprefix, hlast, hviolation, hfirst⟩ := ih hstatus
    refine ⟨⟨property, []⟩ :: before, last, v, by rw [hreports]; rfl, ?_, ?_, hlast, hviolation,
      hfirst⟩
    · intro report hreport
      rcases List.mem_cons.mp hreport with rfl | hreport
      · rfl
      · exact hpassed report hreport
    · exact List.cons_prefix_cons.mpr ⟨rfl, hprefix⟩

end Parallel

/-- The check for one violation and the check for all agree, whatever the model, the list of
properties and the oracle. They succeed together, with the same reports; if the check for one is
aborted, so is the other, with the same cause and reports; if it fails, it has passed the
properties before the last one in the same way as the other, and it found there what the other
finds first, unless the other did not come to the end of that property. The check for all reports
on every property in order, up to the one that aborts it, and fails exactly if a report does. -/
theorem check_agrees_with_checkAll (verifier : Verifier) (model : Model) :
    let first := (verifier.check model).value
    let all := (verifier.checkAll model).value
    (first.status = .success ↔ all.status = .success) ∧
    (first.status = .success → first.reports = all.reports) ∧
    (∀ cause, first.status = .aborted cause →
      all.status = .aborted cause ∧ all.reports = first.reports) ∧
    (first.status = .failed → all.status ≠ .success ∧
      ∃ before last v, first.reports = before ++ [last] ∧
        (∀ report ∈ before, report.passed = true) ∧ before <+: all.reports ∧
        verifier.properties[before.length]? = some last.property ∧ last.violations = [v] ∧
        ∀ report, all.reports[before.length]? = some report →
          report.property = last.property ∧ report.violations.head? = some v) ∧
    ((∀ cause, all.status ≠ .aborted cause) →
      List.Forall₂ (Reported verifier.oracle model) verifier.properties all.reports ∧
      all.reports.map Report.property = verifier.properties ∧
      (all.status = .failed ↔ ∃ report ∈ all.reports, report.passed = false)) ∧
    (∀ cause, all.status = .aborted cause →
      ∃ before property after, verifier.properties = before ++ property :: after ∧
        List.Forall₂ (Reported verifier.oracle model) before all.reports ∧
        (verify property model verifier.oracle .allViolations).result = .error cause) := by
  intro first all
  have hparallel : Parallel verifier.properties first all := runFrom_parallel verifier.properties
  have hall := goes_run verifier model .allViolations
  refine ⟨hparallel.success_iff, ?_, ?_, ?_, ?_, ?_⟩
  · intro hsuccess
    rw [hparallel.eq_of_status_ne_failed (by rw [hsuccess]; exact nofun)]
  · intro cause haborted
    have hsame := hparallel.eq_of_status_ne_failed (by rw [haborted]; exact nofun)
    rw [← hsame]
    exact ⟨haborted, rfl⟩
  · intro hfailed
    refine ⟨?_, hparallel.reports_of_failed hfailed⟩
    rw [ne_eq, ← hparallel.success_iff, hfailed]
    exact nofun
  · intro hcompleted
    obtain ⟨hreports, hfailed⟩ := hall.complete hcompleted
    exact ⟨hreports, map_property_of_reported hreports, hfailed⟩
  · intro cause haborted
    exact hall.before_abort haborted

/-- Two pairs of transitions clash. The first pair is found with room for three nodes and the
second one is not, so the check for one violation fails where the check for all is aborted; with
more room the check for all begins with the same violation. The transitions out of the initial
state have conditions and wait for an event: each is two violations at one place, of which the
check for one reports the first. -/
theorem check_agrees_on_two_clashes :
    let a : Variable := ⟨⟨1, Nat.one_pos⟩, "A", .boolean⟩
    let b : Variable := ⟨⟨2, Nat.two_pos⟩, "B", .boolean⟩
    let go (source destination : String) (v : Variable) : Transition :=
      ⟨source, destination, ⟨[.external "go"]⟩, some (.atom v), .empty⟩
    let t := go "0" "x" a
    let u := go "0" "y" a
    let model : Model := ⟨"model", [⟨"m", [⟨"0", [t, u]⟩, ⟨"1", [go "1" "x" a, go "1" "y" b]⟩]⟩]⟩
    let verifier (property : Property) (nodes : Nat) : Verifier :=
      ⟨[property], .diagram ⟨none, nodes⟩ .stopped⟩
    let clash : Violation := .nonDeterminism "m" "0" t u ⟨[⟨a, true⟩]⟩ 1 1
    let unready : List Violation := [.guardedInitialization ⟨"m", t⟩,
      .triggeredInitialization ⟨"m", t⟩, .guardedInitialization ⟨"m", u⟩,
      .triggeredInitialization ⟨"m", u⟩]
    ((verifier .determinism 3).check model).value = ⟨.failed, [⟨.determinism, [clash]⟩]⟩ ∧
      ((verifier .determinism 3).checkAll model).value = ⟨.aborted (.nodeLimit 3), []⟩ ∧
      ((verifier .determinism 10).checkAll model).value.status = .failed ∧
      (∀ report, ((verifier .determinism 10).checkAll model).value.reports[0]? = some report →
        report.violations.head? = some clash) ∧
      ((verifier .initialization 3).checkAll model).value =
        ⟨.failed, [⟨.initialization, unready⟩]⟩ ∧
      ((verifier .initialization 3).check model).value =
        ⟨.failed, [⟨.initialization, [.guardedInitialization ⟨"m", t⟩]⟩]⟩ ∧
      unready.head? = some (.guardedInitialization ⟨"m", t⟩) := by
  intro a b go t u model verifier clash unready
  have hsmall : ((verifier .determinism 3).check model).value =
      ⟨.failed, [⟨.determinism, [clash]⟩]⟩ := by decide +kernel
  have hlarge : ((verifier .determinism 10).check model).value =
      ⟨.failed, [⟨.determinism, [clash]⟩]⟩ := by decide +kernel
  have haborted : ((verifier .determinism 3).checkAll model).value =
      ⟨.aborted (.nodeLimit 3), []⟩ := by decide +kernel
  have hall : ((verifier .determinism 10).checkAll model).value.status = .failed := by
    decide +kernel
  have hunready : ((verifier .initialization 3).checkAll model).value =
      ⟨.failed, [⟨.initialization, unready⟩]⟩ := by decide +kernel
  have hguarded : ((verifier .initialization 3).check model).value =
      ⟨.failed, [⟨.initialization, [.guardedInitialization ⟨"m", t⟩]⟩]⟩ := by decide +kernel
  have hhead : ∀ property nodes v,
      ((verifier property nodes).check model).value = ⟨.failed, [⟨property, [v]⟩]⟩ →
      ∀ report, ((verifier property nodes).checkAll model).value.reports[0]? = some report →
        report.violations.head? = some v := by
    intro property nodes v hcheck report hreport
    obtain ⟨-, -, -, hfailed, -⟩ := check_agrees_with_checkAll (verifier property nodes) model
    rw [hcheck] at hfailed
    obtain ⟨-, before, last, w, hreports, -, -, -, hviolation, hfirst⟩ := hfailed rfl
    have hlast : [] ++ [⟨property, [v]⟩] = before ++ [last] := hreports
    obtain ⟨rfl, hlast⟩ := List.append_inj' hlast rfl
    cases hlast
    cases hviolation
    exact (hfirst report hreport).2
  refine ⟨hsmall, haborted, hall, hhead _ _ _ hlarge, hunready, hguarded, ?_⟩
  exact hhead _ _ _ hguarded _ (by rw [hunready]; rfl)

end GuardedMachines.Verification

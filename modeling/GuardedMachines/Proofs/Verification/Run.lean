import GuardedMachines.Proofs.Verification.Loops
import GuardedMachines.Verification.Run

/-!
How runs go. A run takes its properties in order; it ends when they are used up,
when a query reaches a bound, or, looking for one violation only, when a property
fails. A run that looks for all violations reports on every property, and it
fails if one of the reports has a violation; if it is aborted, it has reported on
the properties before the one whose verification did not come to an end.
-/

namespace GuardedMachines.Verification

variable {mode : Mode} {oracle : Oracle} {model : Model}

inductive Goes (oracle : Oracle) (model : Model) (mode : Mode) : List Property → Run → Prop
  | finished : Goes oracle model mode [] ⟨.success, []⟩
  | aborted {property : Property} {rest : List Property} {cause : Exhaustion}
      (verified : (verify property model oracle mode).result = .error cause) :
      Goes oracle model mode (property :: rest) ⟨.aborted cause, []⟩
  | ended {property : Property} {rest : List Property} {report : Report}
      (verified : (verify property model oracle mode).result = .ok report)
      (done : mode.isDone report.violations = true) :
      Goes oracle model mode (property :: rest) ⟨.failed, [report]⟩
  | continued {property : Property} {rest : List Property} {report : Report} {run : Run}
      (verified : (verify property model oracle mode).result = .ok report)
      (undone : mode.isDone report.violations = false) (later : Goes oracle model mode rest run) :
      Goes oracle model mode (property :: rest)
        ⟨if report.passed then run.status else run.status.afterFailure, report :: run.reports⟩

theorem goes_runFrom (oracle : Oracle) (model : Model) (mode : Mode) (properties : List Property) :
    Goes oracle model mode properties (Verifier.runFrom oracle model mode properties).value := by
  induction properties with
  | nil => exact .finished
  | cons property rest ih =>
    cases hverify : (verify property model oracle mode).result with
    | error cause =>
      have htraced : (verify property model oracle mode).traced.value = .error cause := hverify
      rw [Verifier.runFrom, Traced.value_bind, htraced]
      exact .aborted hverify
    | ok report =>
      have htraced : (verify property model oracle mode).traced.value = .ok report := hverify
      rw [Verifier.runFrom, Traced.value_bind, htraced]
      cases hdone : mode.isDone report.violations with
      | true =>
        simp only [hdone, Traced.value_bind, if_true]
        exact .ended hverify hdone
      | false =>
        simp only [hdone, Traced.value_bind, Bool.false_eq_true, if_false]
        exact .continued hverify hdone ih

theorem goes_run (verifier : Verifier) (model : Model) (mode : Mode) :
    Goes verifier.oracle model mode verifier.properties (verifier.run model mode).value :=
  goes_runFrom verifier.oracle model mode verifier.properties

theorem Goes.unique {properties : List Property} {run run' : Run}
    (h : Goes oracle model mode properties run) (h' : Goes oracle model mode properties run') :
    run = run' := by
  induction h generalizing run' with
  | finished =>
    cases h'
    rfl
  | aborted verified =>
    cases h' with
    | aborted verified' =>
      cases verified.symm.trans verified'
      rfl
    | ended verified' => cases verified.symm.trans verified'
    | continued verified' => cases verified.symm.trans verified'
  | ended verified done =>
    cases h' with
    | aborted verified' => cases verified.symm.trans verified'
    | ended verified' =>
      cases verified.symm.trans verified'
      rfl
    | continued verified' undone =>
      cases verified.symm.trans verified'
      cases done.symm.trans undone
  | continued verified undone later ih =>
    cases h' with
    | aborted verified' => cases verified.symm.trans verified'
    | ended verified' done =>
      cases verified.symm.trans verified'
      cases done.symm.trans undone
    | continued verified' _ later' =>
      cases verified.symm.trans verified'
      rw [ih later']

theorem Status.afterFailure_ne_success (status : Status) : status.afterFailure ≠ .success := by
  cases status <;> exact nofun

/-- One more report before a run does not change whether and why the run was aborted. -/
theorem Status.aborted_iff {passed : Bool} {status : Status} {cause : Exhaustion} :
    (if passed then status else status.afterFailure) = .aborted cause ↔
      status = .aborted cause := by
  cases passed <;> cases status <;> simp [afterFailure]

/-- The report is what looking for all violations of the property comes to. -/
def Reported (oracle : Oracle) (model : Model) (property : Property) (report : Report) : Prop :=
  (verify property model oracle .allViolations).result = .ok report

theorem Reported.property_eq {property : Property} {report : Report}
    (h : Reported oracle model property report) : report.property = property := by
  rw [Reported, result_verify] at h
  cases hsearch : (search property.name .allViolations oracle (property.probes model)).result with
  | error cause =>
    rw [hsearch] at h
    cases h
  | ok violations =>
    rw [hsearch] at h
    cases h
    rfl

theorem map_property_of_reported {properties : List Property} {reports : List Report}
    (h : List.Forall₂ (Reported oracle model) properties reports) :
    reports.map Report.property = properties := by
  induction h with
  | nil => rfl
  | cons hreport _ ih => rw [List.map_cons, hreport.property_eq, ih]

/-- A run for all violations that is not aborted reports on every property, and it fails
exactly if one of the reports does. -/
theorem Goes.complete {properties : List Property} {run : Run}
    (h : Goes oracle model .allViolations properties run)
    (hrun : ∀ cause, run.status ≠ .aborted cause) :
    List.Forall₂ (Reported oracle model) properties run.reports ∧
      (run.status = .failed ↔ ∃ report ∈ run.reports, report.passed = false) := by
  induction h with
  | finished => exact ⟨.nil, by simp⟩
  | aborted verified => exact absurd rfl (hrun _)
  | ended verified done => cases done
  | @continued property rest report run verified undone later ih =>
    have hlater : ∀ cause, run.status ≠ .aborted cause :=
      fun cause hstatus => hrun cause (Status.aborted_iff.mpr hstatus)
    obtain ⟨hreports, hfailed⟩ := ih hlater
    refine ⟨.cons verified hreports, ?_⟩
    simp only [List.mem_cons, exists_eq_or_imp]
    cases hpassed : report.passed with
    | true => simpa using hfailed
    | false =>
      refine ⟨fun _ => .inl rfl, fun _ => ?_⟩
      cases hstatus : run.status with
      | success => rfl
      | failed => rfl
      | aborted cause => exact absurd hstatus (hlater cause)

/-- A run for all violations that is aborted has reported on the properties before the one
whose verification reached a bound. -/
theorem Goes.before_abort {properties : List Property} {run : Run}
    (h : Goes oracle model .allViolations properties run) {cause : Exhaustion}
    (hrun : run.status = .aborted cause) :
    ∃ before property after, properties = before ++ property :: after ∧
      List.Forall₂ (Reported oracle model) before run.reports ∧
      (verify property model oracle .allViolations).result = .error cause := by
  induction h with
  | finished => cases hrun
  | @aborted property rest cause' verified =>
    cases hrun
    exact ⟨[], property, rest, rfl, .nil, verified⟩
  | ended verified done => cases done
  | @continued property rest report run verified undone later ih =>
    obtain ⟨before, last, after, rfl, hreports, hlast⟩ := ih (Status.aborted_iff.mp hrun)
    exact ⟨property :: before, last, after, rfl, .cons verified hreports, hlast⟩

end GuardedMachines.Verification

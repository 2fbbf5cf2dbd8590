import Schemata.Proofs.Document.Normalize
import Schemata.Proofs.Pass.Report

namespace Schemata

namespace SchemaSet

variable {settings : NormalizeSettings} {version : SpecVersion} {hoisted : Bool} {webhooks : Outcome}
  {progress : Progress} {pass : Pass} {remaining : List Pass} {report : Pass × Outcome}
  {transform : Schema → Noted Schema} {definitions : Table Schema}

theorem transformAll_of_unchanged (given : pass.transform? = some transform)
    (unchanged : (transformAll transform definitions).changed = false) :
    (transformAll transform definitions).value = definitions := by
  rw [transformAll_changed, List.any_eq_false] at unchanged
  rw [transformAll_value, Table.mapValues_eq_self_iff]
  intro entry member
  exact Pass.transform_of_unchanged given (Bool.eq_false_iff.mpr (unchanged entry member))

/-- Reports are only added. -/
theorem mem_runPass_passes (recorded : report ∈ progress.passes) :
    report ∈ (runPass settings version hoisted webhooks progress pass).passes := by
  by_cases runs : ∃ transform, Runs settings version pass transform
  · obtain ⟨transform, runs⟩ := runs
    rw [runPass_of_runs runs]
    exact List.mem_append_left _ recorded
  · obtain ⟨outcome, same, -⟩ := runPass_of_idle hoisted webhooks progress (not_exists.mp runs)
    rw [same]
    exact List.mem_append_left _ recorded

theorem mem_run_passes (remaining : List Pass) (recorded : report ∈ progress.passes) :
    report ∈ (remaining.foldl (runPass settings version hoisted webhooks) progress).passes := by
  induction remaining generalizing progress with
  | nil => exact recorded
  | cons pass rest ih => exact ih (mem_runPass_passes recorded)

/-- What a pass of the run reports is among the reports of the run. -/
theorem exists_runPass_of_mem (progress : Progress) (listed : pass ∈ remaining) : ∃ before : Progress,
    ∀ report ∈ (runPass settings version hoisted webhooks before pass).passes,
      report ∈ (remaining.foldl (runPass settings version hoisted webhooks) progress).passes := by
  induction remaining generalizing progress with
  | nil => cases listed
  | cons first rest ih =>
    rcases List.mem_cons.mp listed with rfl | later
    · exact ⟨progress, fun report recorded => mem_run_passes rest recorded⟩
    · exact ih _ later

theorem runPass_of_quiet
    (quiet : ∀ report ∈ (runPass settings version hoisted webhooks progress pass).passes, report.2.changed = false) :
    (runPass settings version hoisted webhooks progress pass).definitions = progress.definitions := by
  by_cases runs : ∃ transform, Runs settings version pass transform
  · obtain ⟨transform, runs⟩ := runs
    rw [runPass_of_runs runs] at quiet ⊢
    have reported := quiet _ (List.mem_append_right _ (List.mem_singleton_self _))
    exact transformAll_of_unchanged runs.2 (Bool.or_eq_false_iff.mp reported).2
  · obtain ⟨outcome, same, -⟩ := runPass_of_idle hoisted webhooks progress (not_exists.mp runs)
    rw [same]

theorem run_of_quiet (remaining : List Pass)
    (quiet : ∀ report ∈ (remaining.foldl (runPass settings version hoisted webhooks) progress).passes,
      report.2.changed = false) :
    (remaining.foldl (runPass settings version hoisted webhooks) progress).definitions = progress.definitions := by
  induction remaining generalizing progress with
  | nil => rfl
  | cons pass rest ih =>
    have first := runPass_of_quiet fun report recorded => quiet report (mem_run_passes rest recorded)
    exact (ih quiet).trans first

/-- The reference pass always runs, and reports what was hoisted as its own change. -/
theorem still_of_quiet (listed : .references ∈ remaining)
    (quiet : ∀ report ∈ (remaining.foldl (runPass settings version hoisted webhooks) progress).passes,
      report.2.changed = false) : hoisted = false := by
  have runs : Runs settings version .references Schema.normalizeReferences := by
    constructor
    · simp [NormalizeSettings.skips, Pass.enabled, Pass.needs31]
    · rfl
  obtain ⟨before, recorded⟩ := @exists_runPass_of_mem settings version hoisted webhooks _ _ progress listed
  rw [runPass_of_runs runs] at recorded
  have reported := quiet _ (recorded _ (List.mem_append_right _ (List.mem_singleton_self _)))
  simpa using (Bool.or_eq_false_iff.mp reported).1

/-- What became of the webhooks is reported, whatever the settings are. -/
theorem mem_run_webhooks (listed : .webhooks ∈ remaining) :
    (.webhooks, webhooks) ∈ (remaining.foldl (runPass settings version hoisted webhooks) progress).passes := by
  obtain ⟨before, recorded⟩ := @exists_runPass_of_mem settings version hoisted webhooks _ _ progress listed
  refine recorded _ ?_
  rw [runPass]
  split <;> simp_all [Pass.transform?]

theorem webhooks_of_quiet (listed : .webhooks ∈ remaining)
    (quiet : ∀ report ∈ (remaining.foldl (runPass settings version hoisted webhooks) progress).passes,
      report.2.changed = false) : webhooks.changed = false :=
  quiet _ (mem_run_webhooks listed)

variable {document : Document}

theorem webhookDefinitions_of_unchanged (unchanged : (webhookDefinitions document settings).2.changed = false) :
    (webhookDefinitions document settings).1 = [] := by
  unfold webhookDefinitions at unchanged ⊢
  split at unchanged
  · rfl
  · simpa [Outcome.changed] using unchanged

/-- When no pass reports a change, every definition comes out as it went in, except that a block at its root goes
missing if it is empty. -/
theorem ofDocument_of_quiet (quiet : ∀ report ∈ (ofDocument document settings).passes, report.2.changed = false) :
    (∀ entry ∈ document.definitions, entry.2.blockEntries = []) ∧
    (ofDocument document settings).definitions = Table.mapValues Schema.withoutBlocks document.definitions ∧
    ((ofDocument document settings).definitions = document.definitions ↔
      ∀ entry ∈ document.definitions, entry.2.Blockless) := by
  obtain ⟨definitions, passes⟩ := ofDocument_definitions document settings
  rw [passes] at quiet
  have nothing := webhookDefinitions_of_unchanged (webhooks_of_quiet (by decide) quiet)
  have empty := blockEntries_of_hoistDefinitions (still_of_quiet (by decide) quiet)
  have result := definitions.trans (run_of_quiet Pass.order quiet)
  rw [nothing, List.append_nil] at empty result
  rw [hoistDefinitions_of_empty empty] at result
  refine ⟨empty, result, ?_⟩
  rw [result, Table.mapValues_eq_self_iff]
  constructor
  · exact fun same entry member => Schema.blockless_of_withoutBlocks (same entry member)
  · exact fun blockless entry member => (blockless entry member).withoutBlocks

/-- An empty block goes missing, and no report tells. -/
theorem ofDocument_of_quiet_emptyBlock :
    let document := Document.ofJson (.object [("openapi", .string "3.1.0"), ("components", .object [("schemas", .object
      [("Pet", .object [("type", .string "string"), ("$defs", .object [])])])])])
    (∀ report ∈ (ofDocument document {}).passes, report.2.changed = false) ∧
      (ofDocument document {}).definitions = [("Pet", .node { types := some (.valid (.single "string")) })] ∧
      (ofDocument document {}).definitions ≠ document.definitions := by
  intro document
  have quiet : ∀ report ∈ (ofDocument document {}).passes, report.2.changed = false := by decide
  obtain ⟨-, result, unchanged⟩ := ofDocument_of_quiet quiet
  refine ⟨quiet, result, fun same => ?_⟩
  have blockless := unchanged.mp same ("Pet", _) (List.mem_singleton_self _)
  cases blockless _ rfl "$defs" (by decide)

end SchemaSet

end Schemata

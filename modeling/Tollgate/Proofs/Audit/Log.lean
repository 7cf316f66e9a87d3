import Tollgate.Audit.Log
import Tollgate.Proofs.Audit.Entry
import Tollgate.Proofs.Audit.Trail
import Tollgate.Proofs.Json.Reading
import Tollgate.Proofs.Text.Lines

/-!
# Logs read back

Every entry takes one line of a log, whatever its texts are.  Of the entries
that runs hand over, only the cumulative risk can fail to be written, since a
sum of finite contributions may be too large for a double; the whole log is
refused from the first such entry on.
-/

namespace Tollgate

private theorem Json.oneLine_compact (value : Json) :
    ∀ c ∈ value.compact.toList, c ≠ '\n' ∧ c ≠ '\r' := by
  intro c member
  have visible := Json.isVisible_compact value c member
  constructor <;> rintro rfl <;> exact absurd visible (by decide)

namespace AuditLog

def Holds (log : String) (entries : List AuditEntry) : Prop :=
  log.toList = entries.flatMap fun entry => entry.encode.compact.toList ++ ['\n']

private theorem Holds.append {log : String} {entries : List AuditEntry} (h : Holds log entries)
    (entry : AuditEntry) : Holds (append log entry) (entries ++ [entry]) := by
  unfold Holds at h ⊢
  simp [AuditLog.append, lineOf, h]

private theorem isBlank_compact (entry : AuditEntry) :
    Text.isBlank entry.encode.compact = false := by
  have opens : ∃ rest, entry.encode.compact.toList = '{' :: rest := by
    rw [Json.toList_compact, AuditEntry.encode]
    exact ⟨_, rfl⟩
  obtain ⟨rest, shape⟩ := opens
  rw [Text.isBlank, shape, List.all_cons]
  rfl

theorem Holds.read {log : String} {entries : List AuditEntry} (h : Holds log entries) :
    AuditLog.read log = entries.mapM fun entry => readLine entry.encode.compact := by
  have lines : Text.lines log = entries.map fun entry => entry.encode.compact := by
    unfold Holds at h
    rw [Text.lines, h, Text.splitLines_flatMap fun entry _ => Json.oneLine_compact _, List.map_map]
    simp [Function.comp_def]
  have full : ∀ line ∈ entries.map fun entry => entry.encode.compact,
      (!Text.isBlank line) = true := by
    simp [isBlank_compact]
  rw [AuditLog.read, lines, List.filter_eq_self.mpr full, List.mapM_map, Function.comp_def]

private theorem readLine_compact {entry : AuditEntry} (typed : entry.IsTyped)
    (legible : entry.HasLegibleRisks) :
    readLine entry.encode.compact =
      if entry.IsFinite then .ok entry else .error (.malformed entry.encode.compact) := by
  have read := AuditEntry.read_compact typed legible
  obtain ⟨document, parsed, shape⟩ := Option.map_eq_some_iff.mp read
  unfold readLine
  rw [parsed]
  dsimp only
  rw [shape]
  by_cases finite : entry.IsFinite
  · rw [if_pos finite, if_pos finite]
  · rw [if_neg finite, if_neg finite]

theorem mapM_readLine_ok {entries : List AuditEntry}
    (h : ∀ entry ∈ entries, readLine entry.encode.compact = .ok entry) :
    entries.mapM (fun entry => readLine entry.encode.compact) = .ok entries := by
  induction entries with
  | nil => rfl
  | cons entry rest ih =>
      obtain ⟨first, later⟩ := List.forall_mem_cons.mp h
      rw [List.mapM_cons, first, ih later]
      rfl

private theorem mapM_readLine_error {before after : List AuditEntry} {entry : AuditEntry}
    {error : AuditError} (earlier : ∀ other ∈ before, readLine other.encode.compact = .ok other)
    (first : readLine entry.encode.compact = .error error) :
    (before ++ entry :: after).mapM (fun entry => readLine entry.encode.compact) =
      .error error := by
  rw [List.mapM_append, mapM_readLine_ok earlier, List.mapM_cons, first]
  rfl

end AuditLog

/-- An entry that a run of a stored definition hands to its sink. -/
inductive AuditEntry.IsHandedOver : AuditEntry → Prop
  | of_trail {σ τ : Type} {session : Session} {env : Environment σ τ} {request : RunRequest}
      {state : σ} {log : τ} {entry : AuditEntry} (reachable : session.Reachable)
      (member : entry ∈ Run.trail env (session.trace env request state log)) :
      entry.IsHandedOver

theorem Run.mem_trail {σ τ : Type} {env : Environment σ τ} {trace : List (Stage × Run σ τ)}
    {entry : AuditEntry} (h : entry ∈ trail env trace) :
    ∃ past phase run later, trace = past ++ (.point phase, run) :: later ∧
      entry = run.entryAt env phase := by
  obtain ⟨⟨stage, run⟩, member, named⟩ := List.mem_filterMap.mp h
  obtain ⟨past, later, split⟩ := List.append_of_mem member
  cases stage with
  | level level => cases named
  | point phase =>
      injection named with same
      exact ⟨past, phase, run, later, split, same.symm⟩

namespace AuditEntry.IsHandedOver

variable {entry : AuditEntry}

private theorem risks_grow (h : entry.IsHandedOver) :
    Number.IsAmount entry.riskBefore ∧ entry.riskBefore ≤ entry.riskAfter ∧
      entry.riskContribution = entry.riskAfter - entry.riskBefore := by
  obtain @⟨σ, τ, session, env, request, state, log, _, reachable, member⟩ := h
  obtain ⟨past, phase, run, later, split, rfl⟩ := Run.mem_trail member
  rcases Session.execute_cases reachable.isSound env request state log with
    ⟨_, start, opened⟩ | ⟨_, _, _, _, _, no_trace⟩
  · obtain ⟨reaches, _⟩ := opened.reaches split
    obtain ⟨_, amount⟩ := reaches.isAmount_risk opened.accepted opened.fresh
    obtain ⟨_, grows⟩ := reaches.entryAt opened.accepted opened.fresh phase
    exact ⟨amount, grows, rfl⟩
  · simp [no_trace] at split

private theorem isFinite_iff (h : entry.IsHandedOver) :
    entry.IsFinite ↔ entry.riskAfter.isFinite = true := by
  obtain ⟨amount, grows, contribution⟩ := h.risks_grow
  rw [AuditEntry.isFinite_iff, contribution]
  constructor
  · exact fun finite => finite.2.2
  · intro finite
    exact ⟨amount.isFinite_of_le grows finite, amount.isFinite_sub grows finite, finite⟩

private theorem isTyped (h : entry.IsHandedOver) (clock : entry.moment.IsOnClock) :
    entry.IsTyped where
  duration := by
    obtain ⟨_, member⟩ := h
    obtain ⟨_, _, _, _, _, rfl⟩ := Run.mem_trail member
    exact Nat.mod_lt _ (by decide)
  moment := clock

end AuditEntry.IsHandedOver

private theorem Sink.deliver_log (entries : List AuditEntry) (log : String) :
    Sink.log.deliver entries log = some (entries.foldl AuditLog.append log) := by
  induction entries generalizing log with
  | nil => rfl
  | cons entry rest ih => exact ih (AuditLog.append log entry)

namespace AuditLog

def ofEntries (entries : List AuditEntry) : String := entries.foldl append ""

/-- A log that began empty and that runs, one after the other or side by side, have handed their
entries to, whichever of them opened it. -/
inductive Filed : List AuditEntry → String → Prop
  | empty : Filed [] ""
  | record {entries : List AuditEntry} {entry : AuditEntry} {log later : String} :
      Filed entries log → entry.IsHandedOver →
      Sink.log.record entry log = (.ok (), later) → Filed (entries ++ [entry]) later

namespace Filed

variable {entries more : List AuditEntry} {log later : String}

theorem holds (filed : Filed entries log) : Holds log entries := by
  induction filed with
  | empty => rfl
  | record _ _ taken ih =>
      injection taken with _ same
      exact same ▸ ih.append _

private theorem isHandedOver (filed : Filed entries log) :
    ∀ entry ∈ entries, entry.IsHandedOver := by
  induction filed with
  | empty => exact List.forall_mem_nil _
  | record _ handed _ ih => exact List.forall_mem_append.mpr ⟨ih, by simpa using handed⟩

theorem deliver (filed : Filed entries log) (handed : ∀ entry ∈ more, entry.IsHandedOver)
    (delivered : Sink.log.deliver more log = some later) : Filed (entries ++ more) later := by
  induction more generalizing entries log with
  | nil =>
      injection delivered with same
      subst same
      rwa [List.append_nil]
  | cons entry rest ih =>
      obtain ⟨first, others⟩ := List.forall_mem_cons.mp handed
      have whole := ih (.record filed first rfl) others delivered
      rwa [List.append_assoc] at whole

theorem ofEntries (handed : ∀ entry ∈ entries, entry.IsHandedOver) :
    Filed entries (ofEntries entries) :=
  Filed.empty.deliver handed (Sink.deliver_log entries "")

theorem execute (filed : Filed entries log) {σ : Type} {session : Session}
    (reachable : session.Reachable) {env : Environment σ String} (files : env.sink = .log)
    (request : RunRequest) (state : σ) :
    Filed (entries ++ Run.trail env (session.trace env request state log))
      (session.execute env request state log).log := by
  refine filed.deliver (fun entry member => .of_trail reachable member) ?_
  rw [← files]
  rcases Session.execute_cases reachable.isSound env request state log with
    ⟨_, start, opened⟩ | ⟨_, _, _, _, same_log, no_trace⟩
  · have ran : ∃ execution, (session.execute env request state log).outcome = .ok execution := by
      obtain ⟨progress, ending, outcome, _, _⟩ := opened.ending
      cases ending with
      | completed | halted | stopped => exact ⟨_, outcome⟩
      | refused _ _ _ refused =>
          rw [files] at refused
          cases refused
    obtain ⟨execution, ran⟩ := ran
    have recorded := opened.isRecorded.recorded execution ran
    exact recorded.complete ▸ recorded.delivered
  · rw [no_trace, same_log]
    rfl

section Reading

variable (filed : Filed entries log) (clock : ∀ entry ∈ entries, entry.moment.IsOnClock)
  (legible : ∀ entry ∈ entries, entry.HasLegibleRisks)

include filed clock legible

theorem readLine_compact {entry : AuditEntry} (member : entry ∈ entries) :
    readLine entry.encode.compact =
      if entry.riskAfter.isFinite then .ok entry else .error (.malformed entry.encode.compact) := by
  have handed := filed.isHandedOver entry member
  rw [AuditLog.readLine_compact (handed.isTyped (clock entry member)) (legible entry member)]
  simp only [handed.isFinite_iff]

private theorem read_of_finite (finite : ∀ entry ∈ entries, entry.riskAfter.isFinite = true) :
    AuditLog.read log = .ok entries := by
  rw [filed.holds.read]
  refine mapM_readLine_ok fun entry member => ?_
  rw [filed.readLine_compact clock legible member, if_pos (finite entry member)]

theorem read_of_large {before after : List AuditEntry} {entry : AuditEntry}
    (split : entries = before ++ entry :: after)
    (earlier : ∀ other ∈ before, other.riskAfter.isFinite = true)
    (large : entry.riskAfter.isFinite = false) :
    AuditLog.read log = .error (.malformed entry.encode.compact) := by
  rw [filed.holds.read, split]
  refine mapM_readLine_error (fun other inside => ?_) ?_
  · rw [filed.readLine_compact clock legible (by simp [split, inside]),
      if_pos (earlier other inside)]
  · rw [filed.readLine_compact clock legible (by simp [split]), if_neg (by simp [large])]

theorem read_ne_of_large {entry : AuditEntry} (member : entry ∈ entries)
    (large : entry.riskAfter.isFinite = false) : AuditLog.read log ≠ .ok entries := by
  cases found : entries.find? fun entry => !entry.riskAfter.isFinite with
  | none => exact absurd (by simp [large]) (List.find?_eq_none.mp found entry member)
  | some first =>
      obtain ⟨large, before, after, split, earlier⟩ := List.find?_eq_some_iff_append.mp found
      rw [filed.read_of_large clock legible split (by simpa using earlier) (by simpa using large)]
      exact fun same => (by cases same)

end Reading

end Filed

/-- The log of runs reads back as what was recorded exactly if no cumulative risk has grown too
large for a double.  Otherwise it is refused for the first entry with such a risk. -/
theorem read_filed {entries : List AuditEntry} {log : String} (filed : Filed entries log)
    (clock : ∀ entry ∈ entries, entry.moment.IsOnClock)
    (legible : ∀ entry ∈ entries, entry.HasLegibleRisks) :
    (read log = .ok entries ↔ ∀ entry ∈ entries, entry.riskAfter.isFinite = true) ∧
      ∀ before entry after, entries = before ++ entry :: after →
        (∀ earlier ∈ before, earlier.riskAfter.isFinite = true) →
        entry.riskAfter.isFinite = false →
        read log = .error (.malformed entry.encode.compact) := by
  refine ⟨⟨fun reads entry member => ?_, filed.read_of_finite clock legible⟩,
    fun _ _ _ => filed.read_of_large clock legible⟩
  exact eq_true_of_ne_false fun large => filed.read_ne_of_large clock legible member large reads

theorem read_filed_doubling :
    let env : Environment Unit (List AuditEntry) :=
      { Environment.arithmetic with elapsed := fun _ _ => 1250 }
    let entries := Run.trail env (Session.doubling.trace env .doubling () [])
    entries.map AuditEntry.decisionPoint = ["global", "step_1", "step_2", "final"] ∧
      entries.map AuditEntry.processingMs = [1250, 1250, 1250, 1250] ∧
      read (ofEntries entries) = .ok entries := by
  intro env entries
  have filed : Filed entries (ofEntries entries) :=
    .ofEntries fun entry member => .of_trail Session.reachable_doubling member
  have checked : entries.map AuditEntry.decisionPoint = ["global", "step_1", "step_2", "final"] ∧
      entries.map AuditEntry.processingMs = [1250, 1250, 1250, 1250] ∧
      (∀ entry ∈ entries, entry.moment.IsOnClock) ∧ (∀ entry ∈ entries, entry.HasLegibleRisks) ∧
        ∀ entry ∈ entries, entry.riskAfter.isFinite = true := by
    decide +kernel
  obtain ⟨points, times, clock, legible, finite⟩ := checked
  exact ⟨points, times, (read_filed filed clock legible).1.mpr finite⟩

end AuditLog

/-- Each contribution is finite, and their sum is not. -/
def Definition.excessive : Definition where
  id := "excessive"
  steps := [(Step.make 1 "math" "identity").withInput "value" (Json.ofNat 1)]
  rules := [.global "first" "" 1e308 .proceed, .global "second" "" 1e308 .proceed]

def Session.excessive : Session where
  store := ⟨[.excessive]⟩

private theorem Session.reachable_excessive : Session.excessive.Reachable :=
  .single (by decide) (Definition.check_of_isOk (by decide +kernel))

theorem AuditLog.read_filed_excessive :
    ¬ ∀ entries log, Filed entries log → (∀ entry ∈ entries, entry.moment.IsOnClock) →
      (∀ entry ∈ entries, entry.HasLegibleRisks) → read log = .ok entries := by
  intro reads
  let request : RunRequest := { RunRequest.doubling with definition := "excessive" }
  let entries := Run.trail .arithmetic (Session.excessive.trace .arithmetic request () [])
  have filed : Filed entries (ofEntries entries) :=
    .ofEntries fun entry member => .of_trail Session.reachable_excessive member
  have checked : (∀ entry ∈ entries, entry.moment.IsOnClock) ∧
      (∀ entry ∈ entries, entry.HasLegibleRisks) ∧
        ∃ entry ∈ entries, entry.riskAfter.isFinite = false := by
    decide +kernel
  obtain ⟨clock, legible, entry, member, large⟩ := checked
  exact filed.read_ne_of_large clock legible member large (reads entries _ filed clock legible)

end Tollgate

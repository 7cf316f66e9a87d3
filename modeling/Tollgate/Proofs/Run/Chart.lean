import Mathlib.Data.List.Induction
import Mathlib.Data.List.Nodup
import Mathlib.Data.List.Perm.Basic
import Mathlib.Data.List.TakeWhile
import Tollgate.Proofs.Text.Digits
import Tollgate.Proofs.Text.Lines
import Tollgate.Run.Timeline

/-!
# Charts of recorded results

Every result that is recorded has at most one row in the chart, a bar or an
entry for a skipped step.  What a result shows depends on its status and on
whether its engine was called; a failed step whose engine was not called is the
only one that the chart leaves out.
-/

namespace Tollgate.Timeline

/-! ## Tables by step -/

section Put

variable {α : Type} {step : Nat} {value : α} {table : List (Nat × α)}

theorem lookup_put : (put step value table).lookup step = some value := by
  fun_induction put step value table with
  | case1 => simp
  | case2 => simp
  | case3 => simp
  | case4 n v rest _ differs ih =>
      have other : (step == n) = false := by simpa using differs
      rw [List.lookup_cons, other]
      exact ih

theorem put_put (other : α) : put step other (put step value table) = put step other table := by
  fun_induction put step value table with
  | case1 => simp [put]
  | case2 n v rest less => simp [put, less]
  | case3 v rest => simp [put]
  | case4 n v rest not_less differs ih => simp [put, not_less, differs, ih]

theorem perm_put (fresh : step ∉ table.map Prod.fst) :
    (put step value table).Perm ((step, value) :: table) := by
  fun_induction put step value table with
  | case1 => exact .refl _
  | case2 => exact .refl _
  | case3 v rest => simp at fresh
  | case4 n v rest _ _ ih =>
      rw [List.map_cons, List.mem_cons, not_or] at fresh
      exact ((ih fresh.2).cons (n, v)).trans (.swap _ _ _)

private theorem filter_put (fresh : step ∉ table.map Prod.fst) :
    (put step value table).filter (fun row => row.1 != step) = table := by
  have kept : table.filter (fun row => row.1 != step) = table := by
    refine List.filter_eq_self.mpr fun row member => ?_
    rw [bne_iff_ne]
    rintro rfl
    exact fresh (List.mem_map_of_mem member)
  fun_induction put step value table with
  | case1 => simp
  | case2 n v rest less => rw [List.filter_cons_of_neg (by simp), kept]
  | case3 v rest => simp at fresh
  | case4 n v rest _ differs ih =>
      rw [List.map_cons, List.mem_cons, not_or] at fresh
      rw [List.filter_cons_of_pos (by simpa using Ne.symm differs), List.cons.injEq] at kept
      rw [List.filter_cons_of_pos (by simpa using Ne.symm differs), ih fresh.2 kept.2]

end Put

/-! ## Rows of results -/

def isListed (result : StepResult) : Bool :=
  result.status == .skipped || (result.attempts == 0 && result.status != .failed)

def isDrawn (result : StepResult) : Bool :=
  result.status != .skipped && result.attempts != 0

def spanOf (timeline : Timeline) (result : StepResult) : Span :=
  ⟨timeline.offset result.startedAt, timeline.offset result.finishedAt⟩

private theorem foldl_add_eventsOf (timeline : Timeline) {rows : Rows} {result : StepResult}
    (unstarted : result.number ∉ rows.spans.map Prod.fst)
    (unskipped : result.number ∉ rows.skipped) :
    (eventsOf result).foldl (Rows.add timeline) rows =
      { spans :=
          if isDrawn result then put result.number (timeline.spanOf result) rows.spans
          else rows.spans
        skipped := rows.skipped ++ if isListed result then [result.number] else [] } := by
  have kept : rows.spans.filter (fun row => row.1 != result.number) = rows.spans := by
    refine List.filter_eq_self.mpr fun row member => ?_
    rw [bne_iff_ne]
    rintro same
    exact unstarted (same ▸ List.mem_map_of_mem member)
  have absent : rows.spans.lookup result.number = none := by
    refine List.lookup_eq_none_iff.mpr fun row member => ?_
    rw [bne_iff_ne]
    rintro same
    exact unstarted (same ▸ List.mem_map_of_mem member)
  unfold eventsOf
  by_cases called : result.attempts = 0
  · cases ended : result.status <;>
      simp [called, ended, Rows.add, isDrawn, isListed, kept, absent, unskipped]
  · cases ended : result.status <;>
      simp [called, ended, Rows.add, TimelineEvent.Kind.ofStatus, isDrawn, isListed, spanOf,
        filter_put unstarted, lookup_put, put_put, unskipped]

theorem foldl_add_results (timeline : Timeline) {results : List StepResult}
    (distinct : (results.map StepResult.number).Nodup) :
    let rows := (results.flatMap eventsOf).foldl (Rows.add timeline) {}
    rows.spans.Perm ((results.filter isDrawn).map fun result =>
        (result.number, timeline.spanOf result)) ∧
      rows.skipped = (results.filter isListed).map StepResult.number := by
  induction results using List.reverseRecOn with
  | nil => exact ⟨.nil, rfl⟩
  | append_singleton results result ih =>
      rw [List.map_append, List.map_singleton, List.nodup_append] at distinct
      obtain ⟨earlier, -, apart⟩ := distinct
      obtain ⟨spans, skipped⟩ := ih earlier
      have fresh : result.number ∉ results.map StepResult.number := fun member =>
        apart _ member _ (List.mem_singleton_self _) rfl
      have unstarted : result.number ∉
          ((results.flatMap eventsOf).foldl (Rows.add timeline) {}).spans.map Prod.fst := by
        rw [(spans.map Prod.fst).mem_iff, List.map_map]
        exact fun member => fresh ((List.filter_sublist.map _).subset member)
      have unskipped : result.number ∉
          ((results.flatMap eventsOf).foldl (Rows.add timeline) {}).skipped := by
        rw [skipped]
        exact fun member => fresh ((List.filter_sublist.map _).subset member)
      simp only [List.flatMap_append, List.flatMap_singleton, List.foldl_append,
        foldl_add_eventsOf timeline unstarted unskipped, List.filter_append, List.map_append,
        skipped]
      constructor
      · by_cases drawn : isDrawn result = true
        · rw [if_pos drawn, List.filter_cons_of_pos drawn]
          exact ((perm_put unstarted).trans (spans.cons _)).trans
            (List.perm_append_singleton _ _).symm
        · rw [if_neg drawn, List.filter_cons_of_neg drawn]
          simpa using spans
      · by_cases listed : isListed result = true
        · rw [if_pos listed, List.filter_cons_of_pos listed]
          rfl
        · rw [if_neg listed, List.filter_cons_of_neg listed]
          rfl

private theorem foldl_record (timeline : Timeline) (results : List StepResult) :
    results.foldl record timeline =
      { timeline with events := timeline.events ++ results.flatMap eventsOf } := by
  induction results generalizing timeline with
  | nil => simp
  | cons result rest ih => simp [ih, record]

def recorded (start : Moment) (results : List StepResult) : Timeline :=
  results.foldl record { start }

theorem rows_recorded (start : Moment) (results : List StepResult) :
    (recorded start results).rows =
      (results.flatMap eventsOf).foldl (Rows.add (recorded start results)) {} := by
  unfold rows recorded
  rw [foldl_record]
  rfl

/-! ## Lines of the chart -/

def barText (scale : Float) (step : Nat) (span : Span) : String :=
  label step ++ Text.spaces (cells scale span.start) ++
    String.ofList (List.replicate (max (cells scale span.millis) 1) '#') ++
    "| (" ++ toString span.millis ++ " ms)"

def skippedText (step : Nat) : String := label step ++ " skipped"

theorem bar_eq (scale : Float) (step : Nat) (span : Span) :
    bar scale step span = barText scale step span ++ "\n" := by
  have ending : " ms)\n" = " ms)" ++ "\n" := by decide
  rw [bar, barText, ending, ← String.append_assoc]

theorem exists_label (step : Nat) :
    ∃ rest, (label step).toList = "step".toList ++ (Nat.toDigits 10 step ++ ' ' :: rest) := by
  refine ⟨List.replicate (8 - ("step" ++ toString step).length) ' ' ++ ['|'], ?_⟩
  have blanks (n : Nat) : List.replicate n ' ' ++ [' ', '|'] =
      ' ' :: (List.replicate n ' ' ++ ['|']) := by
    rw [← List.singleton_append, ← List.append_assoc, ← List.replicate_succ', List.replicate_succ,
      List.cons_append]
  rw [label, Text.padEnd, Text.spaces]
  simp only [String.toList_append, String.toList_ofList, Nat.toString_eq_repr, Nat.toList_repr,
    List.append_assoc]
  rw [← blanks]
  rfl

theorem prefix_label_iff {step number : Nat} (rest : List Char) :
    (label step).toList <+: (label number).toList ++ rest ↔ step = number := by
  constructor
  · rintro ⟨more, same⟩
    obtain ⟨left, shape⟩ := exists_label step
    obtain ⟨right, shape'⟩ := exists_label number
    rw [shape, shape'] at same
    simp only [List.append_assoc, List.append_cancel_left_eq, List.cons_append] at same
    have digits (n : Nat) (after : List Char) :
        (Nat.toDigits 10 n ++ ' ' :: after).takeWhile Char.isDigit = Nat.toDigits 10 n := by
      rw [(Text.takeWhile_append_of_head (by simp) _).1, List.takeWhile_eq_self_iff]
      exact fun c member => Nat.isDigit_of_mem_toDigits (by decide) (by decide) member
    have numbers := congrArg (List.takeWhile Char.isDigit) same
    rw [digits, digits] at numbers
    refine toString_injective ?_
    rw [Nat.toString_eq_ofList_toDigits, Nat.toString_eq_ofList_toDigits, numbers]
  · rintro rfl
    exact List.prefix_append _ _

def scale (timeline : Timeline) : Float :=
  if timeline.total = 0 then 0.0 else width / Float.ofNat timeline.total

def rowTexts (timeline : Timeline) : List (Nat × String) :=
  (timeline.rows.spans.mergeSort startsBefore).map
      (fun row => (row.1, barText timeline.scale row.1 row.2)) ++
    timeline.rows.skipped.map fun step => (step, skippedText step)

def chartTexts (timeline : Timeline) : List String :=
  ["", "Execution Timeline:", ""] ++ timeline.rowTexts.map Prod.snd ++
    ["", "Total: " ++ toString timeline.total ++ " ms"]

private theorem toList_bar (scale : Float) (step : Nat) (span : Span) :
    (bar scale step span).toList = (barText scale step span).toList ++ ['\n'] := by
  rw [bar_eq, String.toList_append]
  rfl

private theorem toList_skipped (step : Nat) :
    (label step ++ " skipped\n").toList = (skippedText step).toList ++ ['\n'] := by
  have ending : " skipped\n".toList = " skipped".toList ++ ['\n'] := by decide
  rw [skippedText, String.toList_append, String.toList_append, ending, List.append_assoc]

private theorem toList_total (n : Nat) : ("\nTotal: " ++ (toString n ++ " ms\n")).toList =
    ["", "Total: " ++ toString n ++ " ms"].flatMap fun line => line.toList ++ ['\n'] := by
  have opening : "\nTotal: ".toList = '\n' :: "Total: ".toList := by decide
  have ending : " ms\n".toList = " ms".toList ++ ['\n'] := by decide
  simp only [String.toList_append, opening, ending, List.flatMap_cons, List.flatMap_nil,
    List.append_assoc, List.cons_append, List.append_nil]
  rfl

theorem toList_chart (timeline : Timeline) :
    timeline.chart.toList = timeline.chartTexts.flatMap fun line => line.toList ++ ['\n'] := by
  have heading : "\nExecution Timeline:\n\n".toList =
      ["", "Execution Timeline:", ""].flatMap fun line => line.toList ++ ['\n'] := by decide
  have drawn : timeline.chart = "\nExecution Timeline:\n\n" ++ String.join _ ++ "\nTotal: " ++
    toString timeline.total ++ " ms\n" := rfl
  rw [drawn, String.append_assoc, String.append_assoc, String.toList_append, String.toList_append,
    toList_total, heading, chartTexts, List.flatMap_append, List.flatMap_append, rowTexts,
    String.toList_join]
  simp only [List.flatMap_append, List.flatMap_map, List.map_append, List.map_map,
    Function.comp_def, toList_skipped, toList_bar, scale]

theorem oneLine_label (step : Nat) : Text.OneLine (label step).toList := by
  have word : Text.OneLine "step".toList := by decide
  have edge : Text.OneLine " |".toList := by decide
  rw [label, Text.padEnd, String.toList_append, String.toList_append, String.toList_append]
  exact ((word.append (Text.oneLine_natural step)).append (Text.oneLine_spaces _)).append edge

private theorem oneLine_barText (scale : Float) (step : Nat) (span : Span) :
    Text.OneLine (barText scale step span).toList := by
  have opening : Text.OneLine "| (".toList := by decide
  have ending : Text.OneLine " ms)".toList := by decide
  have marks : Text.OneLine
      (String.ofList (List.replicate (max (cells scale span.millis) 1) '#')).toList := by
    rw [String.toList_ofList]
    exact Text.oneLine_replicate (by decide) _
  simp only [barText, String.toList_append]
  exact (((((oneLine_label step).append (Text.oneLine_spaces _)).append marks).append
    opening).append (Text.oneLine_integer span.millis)).append ending

private theorem oneLine_rowTexts (timeline : Timeline) :
    ∀ row ∈ timeline.rowTexts, Text.OneLine row.2.toList := by
  intro row member
  rcases List.mem_append.mp member with drawn | listed
  · obtain ⟨⟨step, span⟩, -, rfl⟩ := List.mem_map.mp drawn
    exact oneLine_barText _ step span
  · obtain ⟨step, -, rfl⟩ := List.mem_map.mp listed
    have ending : Text.OneLine " skipped".toList := by decide
    rw [skippedText, String.toList_append]
    exact (oneLine_label step).append ending

private theorem oneLine_chartTexts (timeline : Timeline) :
    ∀ line ∈ timeline.chartTexts, Text.OneLine line.toList := by
  have heading : ∀ line ∈ ["", "Execution Timeline:", ""], Text.OneLine line.toList := by decide
  have opening : Text.OneLine "Total: ".toList := by decide
  have ending : Text.OneLine " ms".toList := by decide
  have total : ∀ line ∈ ["", "Total: " ++ toString timeline.total ++ " ms"],
      Text.OneLine line.toList := by
    refine List.forall_mem_cons.mpr ⟨by decide, List.forall_mem_singleton.mpr ?_⟩
    rw [String.toList_append, String.toList_append]
    exact (opening.append (Text.oneLine_natural _)).append ending
  refine List.forall_mem_append.mpr ⟨List.forall_mem_append.mpr ⟨heading, ?_⟩, total⟩
  exact List.forall_mem_map.mpr timeline.oneLine_rowTexts

theorem lines_chart (timeline : Timeline) : Text.lines timeline.chart = timeline.chartTexts := by
  rw [Text.lines, toList_chart, Text.splitLines_flatMap timeline.oneLine_chartTexts, List.map_map]
  exact List.map_id'' (fun line => String.ofList_toList) _

/-! ## The rows of a step -/

def rowsOf (chart : String) (step : Nat) : List String :=
  (Text.lines chart).filter fun line => (label step).toList.isPrefixOf line.toList

private theorem label_not_prefix (step : Nat) {text : String}
    (differs : text.toList.head? ≠ some 's') :
    (label step).toList.isPrefixOf text.toList = false := by
  obtain ⟨rest, shape⟩ := exists_label step
  refine Bool.eq_false_iff.mpr fun begins => differs ?_
  obtain ⟨more, whole⟩ := List.isPrefixOf_iff_prefix.mp begins
  rw [← whole, shape]
  rfl

private theorem begins_rowTexts (timeline : Timeline) :
    ∀ row ∈ timeline.rowTexts, (label row.1).toList <+: row.2.toList := by
  intro row member
  rcases List.mem_append.mp member with drawn | listed
  · obtain ⟨⟨step, span⟩, -, rfl⟩ := List.mem_map.mp drawn
    simp only [barText, String.toList_append, List.append_assoc]
    exact List.prefix_append _ _
  · obtain ⟨step, -, rfl⟩ := List.mem_map.mp listed
    rw [skippedText, String.toList_append]
    exact List.prefix_append _ _

theorem rowsOf_chart (timeline : Timeline) (step : Nat) :
    rowsOf timeline.chart step =
      (timeline.rowTexts.filter fun row => row.1 == step).map Prod.snd := by
  have unlabelled {lines : List String} (differ : ∀ line ∈ lines, line.toList.head? ≠ some 's') :
      (lines.filter fun line => (label step).toList.isPrefixOf line.toList) = [] :=
    List.filter_eq_nil_iff.mpr fun line member =>
      Bool.not_eq_true _ ▸ label_not_prefix step (differ line member)
  have total : ∀ line ∈ ["", "Total: " ++ toString timeline.total ++ " ms"],
      line.toList.head? ≠ some 's' := by
    refine List.forall_mem_cons.mpr ⟨by decide, List.forall_mem_singleton.mpr ?_⟩
    have opening : "Total: ".toList = 'T' :: "otal: ".toList := by decide
    rw [String.append_assoc, String.toList_append, opening, List.cons_append, List.head?_cons]
    decide
  have rows (row : Nat × String) (member : row ∈ timeline.rowTexts) :
      (label step).toList.isPrefixOf row.2.toList = (row.1 == step) := by
    obtain ⟨rest, whole⟩ := timeline.begins_rowTexts row member
    rw [Bool.eq_iff_iff, List.isPrefixOf_iff_prefix, ← whole, prefix_label_iff, beq_iff_eq,
      eq_comm]
  rw [rowsOf, lines_chart, chartTexts, List.filter_append, List.filter_append,
    unlabelled (by decide), unlabelled total, List.nil_append, List.append_nil, List.filter_map]
  exact congrArg (List.map Prod.snd) (List.filter_congr rows)

/-! ## Rows of recorded results -/

def IsBar (step : Nat) (span : Span) (row : String) : Prop :=
  ∃ before length, 0 < length ∧
    row = label step ++ Text.spaces before ++ String.ofList (List.replicate length '#') ++
      "| (" ++ toString span.millis ++ " ms)"

/-- What a result shows by its status and the calls of its engine. -/
inductive Shows (timeline : Timeline) (result : StepResult) : List String → Prop
  | bar {row : String} : result.status ≠ .skipped → result.attempts ≠ 0 →
      IsBar result.number (timeline.spanOf result) row → Shows timeline result [row]
  | skipped : result.status = .skipped ∨ (result.attempts = 0 ∧ result.status ≠ .failed) →
      Shows timeline result [skippedText result.number]
  | nothing : result.status = .failed → result.attempts = 0 → Shows timeline result []

def rowOf (timeline : Timeline) (result : StepResult) : Option String :=
  if isDrawn result then some (barText timeline.scale result.number (timeline.spanOf result))
  else if isListed result then some (skippedText result.number)
  else none

theorem shows_rowOf (timeline : Timeline) (result : StepResult) :
    Shows timeline result (timeline.rowOf result).toList := by
  unfold rowOf
  by_cases drawn : isDrawn result = true
  · rw [if_pos drawn]
    simp only [isDrawn, Bool.and_eq_true, bne_iff_ne] at drawn
    exact .bar drawn.1 drawn.2 ⟨_, _, Nat.le_max_right _ 1, rfl⟩
  · rw [if_neg drawn]
    by_cases listed : isListed result = true
    · rw [if_pos listed]
      simp only [isListed, Bool.or_eq_true, Bool.and_eq_true, beq_iff_eq, bne_iff_ne] at listed
      exact .skipped listed
    · rw [if_neg listed]
      simp only [isDrawn, Bool.and_eq_true, bne_iff_ne] at drawn
      simp only [isListed, Bool.or_eq_true, Bool.and_eq_true, beq_iff_eq, bne_iff_ne] at listed
      have called : result.attempts = 0 := by tauto
      exact .nothing (by tauto) called

private theorem perm_rows (timeline : Timeline) (results : List StepResult) :
    ((results.filter isDrawn).map (fun result =>
        (result.number, barText timeline.scale result.number (timeline.spanOf result))) ++
      (results.filter isListed).map fun result => (result.number, skippedText result.number)).Perm
      (results.filterMap fun result => (timeline.rowOf result).map (Prod.mk result.number)) := by
  induction results with
  | nil => exact .nil
  | cons result results ih =>
      by_cases drawn : isDrawn result = true
      · have unlisted : ¬isListed result = true := by
          simp only [isDrawn, isListed, Bool.or_eq_true, Bool.and_eq_true, beq_iff_eq,
            bne_iff_ne] at drawn ⊢
          tauto
        rw [List.filter_cons_of_pos drawn, List.filter_cons_of_neg unlisted,
          List.filterMap_cons_some (by rw [rowOf, if_pos drawn]; rfl), List.map_cons,
          List.cons_append]
        exact ih.cons _
      · by_cases listed : isListed result = true
        · rw [List.filter_cons_of_neg drawn, List.filter_cons_of_pos listed,
            List.filterMap_cons_some (by rw [rowOf, if_neg drawn, if_pos listed]; rfl),
            List.map_cons]
          exact List.perm_middle.trans (ih.cons _)
        · rw [List.filter_cons_of_neg drawn, List.filter_cons_of_neg listed,
            List.filterMap_cons_none (by rw [rowOf, if_neg drawn, if_neg listed]; rfl)]
          exact ih

theorem perm_rowTexts (start : Moment) {results : List StepResult}
    (distinct : (results.map StepResult.number).Nodup) :
    (recorded start results).rowTexts.Perm
      (results.filterMap fun result =>
        ((recorded start results).rowOf result).map (Prod.mk result.number)) := by
  obtain ⟨spans, skipped⟩ := foldl_add_results (recorded start results) distinct
  rw [← rows_recorded] at spans skipped
  have bars := ((List.mergeSort_perm _ startsBefore).trans spans).map fun row =>
    (row.1, barText (recorded start results).scale row.1 row.2)
  rw [List.map_map] at bars
  rw [rowTexts, skipped, List.map_map]
  exact (bars.append_right _).trans (perm_rows (recorded start results) results)

theorem filter_number {results : List StepResult} {result : StepResult}
    (distinct : (results.map StepResult.number).Nodup) (member : result ∈ results) :
    (results.filter fun other => other.number == result.number) = [result] := by
  induction results with
  | nil => cases member
  | cons first rest ih =>
      rw [List.map_cons, List.nodup_cons] at distinct
      rcases List.mem_cons.mp member with rfl | later
      · rw [List.filter_cons, if_pos (beq_iff_eq.mpr rfl), List.cons.injEq]
        refine ⟨rfl, List.filter_eq_nil_iff.mpr fun other inside same => distinct.1 ?_⟩
        exact beq_iff_eq.mp same ▸ List.mem_map_of_mem inside
      · rw [List.filter_cons_of_neg, ih distinct.2 later]
        rw [beq_iff_eq]
        intro same
        exact distinct.1 (same ▸ List.mem_map_of_mem later)

private theorem filter_filterMap_number (row : StepResult → Option String)
    (results : List StepResult) (step : Nat) :
    ((results.filterMap fun result => (row result).map (Prod.mk result.number)).filter
        fun entry => entry.1 == step).map Prod.snd =
      (results.filter fun result => result.number == step).filterMap row := by
  induction results with
  | nil => rfl
  | cons result results ih =>
      cases shown : row result with
      | none =>
          rw [List.filterMap_cons_none (by rw [shown]; rfl), ih, List.filter_cons]
          split
          · rw [List.filterMap_cons_none shown]
          · rfl
      | some text =>
          rw [List.filterMap_cons_some (by rw [shown]; rfl), List.filter_cons, List.filter_cons]
          split
          · rw [List.map_cons, ih, List.filterMap_cons_some shown]
          · exact ih

theorem perm_rowsOf_recorded (start : Moment) {results : List StepResult}
    (distinct : (results.map StepResult.number).Nodup) (step : Nat) :
    (rowsOf (recorded start results).chart step).Perm
      ((results.filter fun result => result.number == step).filterMap
        (recorded start results).rowOf) := by
  rw [rowsOf_chart, ← filter_filterMap_number]
  exact ((perm_rowTexts start distinct).filter _).map _

theorem rowsOf_recorded (start : Moment) {results : List StepResult} {result : StepResult}
    (distinct : (results.map StepResult.number).Nodup) (member : result ∈ results) :
    rowsOf (recorded start results).chart result.number =
      ((recorded start results).rowOf result).toList := by
  have rows := perm_rowsOf_recorded start distinct result.number
  rw [filter_number distinct member] at rows
  cases shown : (recorded start results).rowOf result with
  | none =>
      rw [List.filterMap_cons_none shown] at rows
      exact rows.eq_nil
  | some text =>
      rw [List.filterMap_cons_some shown] at rows
      exact rows.eq_singleton

theorem rowsOf_recorded_eq_nil (start : Moment) {results : List StepResult} {step : Nat}
    (distinct : (results.map StepResult.number).Nodup)
    (absent : step ∉ results.map StepResult.number) :
    rowsOf (recorded start results).chart step = [] := by
  have rows := perm_rowsOf_recorded start distinct step
  rw [List.filter_eq_nil_iff.mpr] at rows
  · exact rows.eq_nil
  · intro result member same
    exact absent (beq_iff_eq.mp same ▸ List.mem_map_of_mem member)

def IsInPlace (timeline : Timeline) (result : StepResult) : Prop :=
  if result.status = .skipped then
    rowsOf timeline.chart result.number = [skippedText result.number]
  else
    ∃ row, rowsOf timeline.chart result.number = [row] ∧
      IsBar result.number (timeline.spanOf result) row

private theorem not_isBar_skippedText (step : Nat) (span : Span) :
    ¬IsBar step span (skippedText step) := by
  rintro ⟨before, length, positive, same⟩
  have texts := congrArg String.toList same
  simp only [skippedText, String.toList_append, String.toList_ofList, List.append_assoc,
    List.append_cancel_left_eq] at texts
  have mark : '#' ∈ " skipped".toList := by
    rw [texts]
    exact List.mem_append_right _ (List.mem_append_left _
      (List.mem_replicate.mpr ⟨positive.ne', rfl⟩))
  exact absurd mark (by decide)

theorem isInPlace_iff {timeline : Timeline} {result : StepResult}
    (shows : Shows timeline result (rowsOf timeline.chart result.number)) :
    timeline.IsInPlace result ↔ (result.attempts = 0 → result.status = .skipped) := by
  unfold IsInPlace
  generalize rowsOf timeline.chart result.number = rows at shows
  cases shows with
  | bar kept called shape =>
      rw [if_neg kept]
      exact iff_of_true ⟨_, rfl, shape⟩ fun none => absurd none called
  | skipped reason =>
      by_cases skip : result.status = .skipped
      · rw [if_pos skip]
        exact iff_of_true rfl fun _ => skip
      · rw [if_neg skip]
        refine iff_of_false ?_ fun due => skip (due (reason.resolve_left skip).1)
        rintro ⟨row, same, shape⟩
        injection same with same
        exact not_isBar_skippedText _ _ (same ▸ shape)
  | nothing failed uncalled =>
      have kept : result.status ≠ .skipped := by rw [failed]; decide
      rw [if_neg kept]
      refine iff_of_false ?_ fun due => kept (due uncalled)
      rintro ⟨row, same, -⟩
      cases same

/-- The chart has the rows of the results and no others. -/
structure ShowsExactly (timeline : Timeline) (results : List StepResult) : Prop where
  own : ∀ result ∈ results, Shows timeline result (rowsOf timeline.chart result.number)
  others : ∀ step ∉ results.map StepResult.number, rowsOf timeline.chart step = []
  whole : ∃ rows, Text.lines timeline.chart =
      ["", "Execution Timeline:", ""] ++ rows ++
        ["", "Total: " ++ toString timeline.total ++ " ms"] ∧
    rows.Perm (results.flatMap fun result => rowsOf timeline.chart result.number)
  place : ∀ result ∈ results,
    timeline.IsInPlace result ↔ (result.attempts = 0 → result.status = .skipped)

theorem recorded_showsExactly (start : Moment) {results : List StepResult}
    (distinct : (results.map StepResult.number).Nodup) :
    (recorded start results).ShowsExactly results := by
  have own (result : StepResult) (member : result ∈ results) :
      Shows (recorded start results) result
        (rowsOf (recorded start results).chart result.number) :=
    rowsOf_recorded start distinct member ▸ shows_rowOf _ result
  refine ⟨own, fun step absent => rowsOf_recorded_eq_nil start distinct absent,
    ⟨_, lines_chart _, ?_⟩, fun result member => isInPlace_iff (own result member)⟩
  have rows := (perm_rowTexts start distinct).map Prod.snd
  have texts : (results.filterMap fun result =>
        ((recorded start results).rowOf result).map (Prod.mk result.number)).map Prod.snd =
      results.flatMap fun result => rowsOf (recorded start results).chart result.number := by
    rw [List.map_filterMap, List.filterMap_eq_flatMap_toList]
    refine List.flatMap_congr fun result member => ?_
    rw [rowsOf_recorded start distinct member, Option.map_map]
    exact congrArg Option.toList Option.map_id'
  exact texts ▸ rows

def endsAtOnce (number : Nat) (status : StepStatus) (attempts : Nat) : StepResult where
  number := number
  name := ""
  target := "math.add"
  status := status
  attempts := attempts
  startedAt := .ofMillis 0
  finishedAt := .ofMillis 0

theorem recorded_showsExactly_unreached :
    let results := [endsAtOnce 2 .completed 1, endsAtOnce 1 .skipped 0,
      endsAtOnce 4 .completedWithFallback 0, endsAtOnce 7 .failed 0]
    (results.map StepResult.number).Nodup ∧
      (recorded (.ofMillis 0) results).ShowsExactly results := by
  have distinct : ([endsAtOnce 2 .completed 1, endsAtOnce 1 .skipped 0,
      endsAtOnce 4 .completedWithFallback 0, endsAtOnce 7 .failed 0].map
        StepResult.number).Nodup := by decide
  exact ⟨distinct, recorded_showsExactly (.ofMillis 0) distinct⟩

/-- The only step of a run failed without a call, and the chart has no row. -/
theorem not_isInPlace_unreached :
    let results := [endsAtOnce 1 .failed 0]
    (results.map StepResult.number).Nodup ∧
      rowsOf (recorded (.ofMillis 0) results).chart 1 = [] ∧
      ¬∀ result ∈ results, (recorded (.ofMillis 0) results).IsInPlace result := by
  have distinct : ([endsAtOnce 1 .failed 0].map StepResult.number).Nodup := by decide
  have member := List.mem_singleton_self (endsAtOnce 1 .failed 0)
  have rows := rowsOf_recorded (.ofMillis 0) distinct member
  rw [rowOf, if_neg (by decide), if_neg (by decide), Option.toList_none] at rows
  have lost : Shows (recorded (.ofMillis 0) [endsAtOnce 1 .failed 0]) (endsAtOnce 1 .failed 0)
      (rowsOf (recorded (.ofMillis 0) [endsAtOnce 1 .failed 0]).chart
        (endsAtOnce 1 .failed 0).number) := rows ▸ .nothing rfl rfl
  refine ⟨distinct, rows, fun all => ?_⟩
  exact absurd ((isInPlace_iff lost).mp (all _ member) rfl) (by decide)

end Tollgate.Timeline

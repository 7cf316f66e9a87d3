import Mathlib.Data.List.Basic
import Tollgate.Text.Lines

/-!
# Texts of several lines

Lines that are ended one after another are the lines that the text is cut into,
as long as none of them breaks off inside.
-/

namespace Tollgate.Text

def OneLine (text : List Char) : Prop := ∀ c ∈ text, c ≠ '\n' ∧ c ≠ '\r'

instance : DecidablePred OneLine :=
  fun text => List.decidableBAll (fun c => c ≠ '\n' ∧ c ≠ '\r') text

theorem OneLine.append {text other : List Char} (h : OneLine text) (h' : OneLine other) :
    OneLine (text ++ other) :=
  fun c member => (List.mem_append.mp member).elim (h c) (h' c)

theorem oneLine_replicate {c : Char} (plain : c ≠ '\n' ∧ c ≠ '\r') (n : Nat) :
    OneLine (List.replicate n c) :=
  fun _ member => List.eq_of_mem_replicate member ▸ plain

private theorem toList_spaces (n : Nat) : (spaces n).toList = List.replicate n ' ' :=
  String.toList_ofList

theorem oneLine_spaces (n : Nat) : OneLine (spaces n).toList :=
  toList_spaces n ▸ oneLine_replicate (by decide) n

theorem oneLine_natural (n : Nat) : OneLine (toString n).toList := by
  intro c member
  rw [Nat.toString_eq_repr, Nat.toList_repr] at member
  have digit := Nat.isDigit_of_mem_toDigits (by decide) (by decide) member
  constructor <;> rintro rfl <;> cases digit

theorem oneLine_integer (k : Int) : OneLine (toString k).toList := by
  cases k with
  | ofNat n => exact oneLine_natural n
  | negSucc n =>
      have shape : toString (Int.negSucc n) = "-" ++ toString (n + 1) := rfl
      rw [shape, String.toList_append]
      exact .append (by decide) (oneLine_natural (n + 1))

private theorem splitLines_append {line : List Char} (rest : List Char)
    (inside : OneLine line) :
    splitLines (line ++ '\n' :: rest) = line :: splitLines rest := by
  induction line with
  | nil => rw [List.nil_append, splitLines]
  | cons c line ih =>
      obtain ⟨⟨feed, back⟩, later⟩ := List.forall_mem_cons.mp inside
      rw [List.cons_append, splitLines, ih later]
      · exact feed
      · exact fun same => absurd same back
      · exact fun _ same => absurd same back

private theorem splitLines_flatMap_append {α : Type} {line : α → List Char} {members : List α}
    (inside : ∀ a ∈ members, OneLine (line a)) (rest : List Char) :
    splitLines ((members.flatMap fun a => line a ++ ['\n']) ++ rest) =
      members.map line ++ splitLines rest := by
  induction members with
  | nil => rfl
  | cons a members ih =>
      obtain ⟨first, later⟩ := List.forall_mem_cons.mp inside
      rw [List.flatMap_cons, List.append_assoc, List.append_assoc, List.singleton_append,
        splitLines_append _ first, ih later, List.map_cons, List.cons_append]

theorem splitLines_flatMap {α : Type} {line : α → List Char} {members : List α}
    (inside : ∀ a ∈ members, OneLine (line a)) :
    splitLines (members.flatMap fun a => line a ++ ['\n']) = members.map line := by
  have whole := splitLines_flatMap_append inside []
  rwa [List.append_nil, splitLines, List.append_nil] at whole

end Tollgate.Text

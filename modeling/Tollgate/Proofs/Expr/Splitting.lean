import Tollgate.Proofs.Expr.Excerpt
import Tollgate.Proofs.Expr.Occurrence

/-!
# How templates are split

A template is cut into references, each as long as can be, and the literal runs
between them, in which no reference begins.  There is one way to do so.  Where a
text has no quotes, the references are those that the scan of a condition
lists; and filling in replaces them once, so that what is put in is not looked
at again.
-/

namespace Tollgate

theorem List.eraseDups_filter {α : Type} [BEq α] [LawfulBEq α] (p : α → Bool) (members : List α) :
    (members.filter p).eraseDups = members.eraseDups.filter p := by
  induction length : members.length using Nat.strongRecOn generalizing members with
  | ind _ ih =>
      cases members with
      | nil => rfl
      | cons a rest =>
          have shorter := List.length_filter_le (fun b => !b == a) rest
          have later := ih _ (by rw [← length, List.length_cons]; omega)
            (rest.filter fun b => !b == a) rfl
          rw [List.filter_filter] at later
          by_cases kept : p a = true
          · rw [List.filter_cons_of_pos kept, List.eraseDups_cons, List.eraseDups_cons,
              List.filter_cons_of_pos kept, List.filter_filter, ← later]
            simp only [Bool.and_comm]
          · rw [List.filter_cons_of_neg kept, List.eraseDups_cons, List.filter_cons_of_neg kept,
              ← later]
            refine congrArg List.eraseDups (List.filter_congr fun b _ => ?_)
            by_cases same : b = a
            · subst same
              simpa using kept
            · simp [same]

namespace Template

open Reference (OccursIn begun? extent)

def Segment.raw : Segment → String
  | .text content => content
  | .reference raw _ => raw

/-! ## The cuts -/

/-- Literal runs in which no reference begins, between references that cannot go on. -/
inductive Cuts : List Char → List Segment → Prop
  | nil : Cuts [] []
  | reference {body rest : List Char} {target : Reference} {segments : List Segment} :
      Reference.ofChars? ('$' :: body) = some target → extent (body ++ rest) = body.length →
      Cuts rest segments →
      Cuts ('$' :: (body ++ rest)) (.reference (String.ofList ('$' :: body)) target :: segments)
  | text {literal rest : List Char} {segments : List Segment} :
      literal ≠ [] → (∀ target, ¬OccursIn target literal) → Cuts rest segments →
      (∀ segment ∈ segments.head?, segment.isReference = true) →
      Cuts (literal ++ rest) (.text (String.ofList literal) :: segments)

def Stops (rest : List Char) : Prop := ∀ c ∈ rest.head?, c = '$'

theorem extent_append_of_stops {rest : List Char} (stops : Stops rest) (chars : List Char) :
    extent (chars ++ rest) = extent chars := by
  have shape : rest = [] ∨ ∃ later, rest = '$' :: later := by
    cases rest with
    | nil => exact .inl rfl
    | cons c later =>
        obtain rfl : c = '$' := stops c rfl
        exact .inr ⟨later, rfl⟩
  fun_induction extent chars with
  | case1 c chars identifier ih =>
      rw [List.cons_append, List.cons_append, extent, if_pos identifier, ← List.cons_append, ih]
  | case2 c chars other => rw [List.cons_append, List.cons_append, extent, if_neg other]
  | case3 c chars _ identifier ih =>
      have no_dot : c ≠ '.' := by
        rintro rfl
        cases identifier
      rw [List.cons_append, Reference.extent_cons no_dot, if_pos identifier, ih]
  | case4 c chars no_pair other =>
      by_cases dot : c = '.'
      · subst dot
        cases chars with
        | nil => rcases shape with rfl | ⟨later, rfl⟩ <;> rfl
        | cons d chars => exact absurd rfl (no_pair d chars rfl)
      · rw [List.cons_append, Reference.extent_cons dot, if_neg other]
  | case5 => rcases shape with rfl | ⟨later, rfl⟩ <;> rfl

private theorem begun?_append_of_stops {rest : List Char} (stops : Stops rest) (chars : List Char) :
    begun? (chars ++ rest) = begun? chars := by
  rw [begun?, begun?, extent_append_of_stops stops,
    List.take_append_of_le_length (Expr.extent_le_length chars)]

theorem Cuts.stops {chars : List Char} {segments : List Segment} (cuts : Cuts chars segments)
    (next : ∀ segment ∈ segments.head?, segment.isReference = true) : Stops chars := by
  cases cuts with
  | nil => exact nofun
  | reference => rintro _ ⟨⟩; rfl
  | text => cases next _ rfl

/-! ## Splitting makes the cuts -/

/-- No reference begins in a literal run, given last first, when `chars` come after it. -/
def Inert (literal chars : List Char) : Prop :=
  ∀ before after, literal.reverse = before ++ '$' :: after → begun? (after ++ chars) = none

theorem inert_nil (chars : List Char) : Inert [] chars := by
  intro before after same
  simp at same

theorem Inert.not_occursIn {literal chars : List Char} (inert : Inert literal chars)
    (stops : Stops chars) (target : Reference) : ¬OccursIn target literal.reverse := by
  rintro ⟨before, after, same, begins⟩
  have unbegun := inert before after same
  rw [begun?_append_of_stops stops, begins] at unbegun
  cases unbegun

theorem Inert.cons {c : Char} {literal rest : List Char} (inert : Inert literal (c :: rest))
    (other : c ≠ '$') : Inert (c :: literal) rest := by
  intro before after same
  rw [List.reverse_cons] at same
  rcases List.eq_nil_or_concat after with rfl | ⟨after, last, rfl⟩
  · obtain ⟨_, dollar⟩ := List.append_inj' same rfl
    cases dollar
    exact absurd rfl other
  · rw [List.concat_eq_append] at same ⊢
    rw [← List.cons_append, ← List.append_assoc] at same
    obtain ⟨split, last_eq⟩ := List.append_inj' same rfl
    cases last_eq
    rw [List.append_assoc]
    exact inert before after split

private theorem Inert.token {literal rest : List Char} (inert : Inert literal ('$' :: rest))
    (unread : begun? rest = none) :
    Inert (('$' :: rest.take (extent rest)).reverse ++ literal) (rest.drop (extent rest)) := by
  intro before after same
  rw [List.reverse_append, List.reverse_reverse] at same
  rcases List.append_eq_append_iff.mp same with ⟨inside, rfl, split⟩ | ⟨inside, split, split'⟩
  · cases inside with
    | nil =>
        obtain rfl : rest.take (extent rest) = after := (List.cons.inj split).2
        rwa [List.take_append_drop]
    | cons d inside =>
        have member : '$' ∈ rest.take (extent rest) := by
          rw [(List.cons.inj split).2]
          simp
        exact absurd rfl (Reference.isPlain_of_extent _ member).2.2
  · cases inside with
    | nil =>
        obtain rfl : after = rest.take (extent rest) := (List.cons.inj split').2
        rwa [List.take_append_drop]
    | cons d inside =>
        rw [List.cons_append, List.cons.injEq] at split'
        obtain ⟨rfl, rfl⟩ := split'
        rw [List.append_assoc, List.cons_append, List.take_append_drop]
        exact inert before inside split

private theorem cuts_flush {literal chars : List Char} {segments : List Segment}
    (inert : Inert literal chars) (cuts : Cuts chars segments)
    (next : ∀ segment ∈ segments.head?, segment.isReference = true) :
    Cuts (literal.reverse ++ chars) (flush literal ++ segments) := by
  cases literal with
  | nil => exact cuts
  | cons c literal =>
      exact .text (by simp) (inert.not_occursIn (cuts.stops next)) cuts next

private theorem cuts_splitFrom {literal chars : List Char} (inert : Inert literal chars) :
    Cuts (literal.reverse ++ chars) (splitFrom literal chars) := by
  fun_induction splitFrom literal chars with
  | case1 literal =>
      have last := cuts_flush inert .nil (by simp)
      rwa [List.append_nil (flush literal)] at last
  | case2 literal rest size token target read ih =>
      have later := ih (inert_nil _)
      rw [List.reverse_nil, List.nil_append] at later
      have here : Cuts ('$' :: rest) (.reference (String.ofList token) target ::
          splitFrom [] (rest.drop size)) := by
        have reach : extent (rest.take size ++ rest.drop size) = (rest.take size).length := by
          rw [List.take_append_drop, List.length_take_of_le (Expr.extent_le_length rest)]
        have cut := Cuts.reference read reach later
        rwa [List.take_append_drop] at cut
      exact cuts_flush inert here (by rintro _ ⟨⟩; rfl)
  | case3 literal rest size token unread ih =>
      have cut := ih (inert.token unread)
      rwa [List.reverse_append, List.reverse_reverse, List.append_assoc, List.cons_append,
        List.take_append_drop] at cut
  | case4 literal c rest other ih =>
      have cut := ih (inert.cons other)
      rwa [List.reverse_cons, List.append_assoc, List.singleton_append] at cut

theorem cuts_split (text : String) : Cuts text.toList (split text) :=
  cuts_splitFrom (inert_nil text.toList)

/-! ## The cuts are unique -/

private theorem splitFrom_run {run rest : List Char} (inert : ∀ target, ¬OccursIn target run)
    (stops : Stops rest) (literal : List Char) :
    splitFrom literal (run ++ rest) = splitFrom (run.reverse ++ literal) rest := by
  induction length : run.length using Nat.strongRecOn generalizing run literal with
  | ind _ ih =>
      cases run with
      | nil => rfl
      | cons c run =>
          rw [List.length_cons] at length
          by_cases dollar : c = '$'
          · subst dollar
            have unread : begun? run = none := by
              refine Option.eq_none_iff_forall_ne_some.mpr fun target begins => ?_
              exact inert target (Reference.occursIn_cons.mpr (.inl ⟨rfl, begins⟩))
            have later : ∀ target, ¬OccursIn target (run.drop (extent run)) := by
              intro target occurs
              rw [Reference.occursIn_drop Reference.isPlain_of_extent] at occurs
              exact inert target (Reference.occursIn_cons.mpr (.inr occurs))
            have reach : extent (run ++ rest) = extent run := extent_append_of_stops stops run
            have inside := Expr.extent_le_length run
            rw [begun?] at unread
            rw [List.cons_append, splitFrom]
            simp only [↓reduceIte, reach, List.take_append_of_le_length inside, unread,
              List.drop_append_of_le_length inside]
            rw [ih _ (by rw [← length, List.length_drop]; omega) later _ rfl,
              ← List.append_assoc, ← List.reverse_append, List.cons_append,
              List.take_append_drop]
          · have later : ∀ target, ¬OccursIn target run := fun target occurs =>
              inert target (Reference.occursIn_cons.mpr (.inr occurs))
            rw [List.cons_append, splitFrom, if_neg dollar, ih _ (by omega) later _ rfl,
              List.reverse_cons, List.append_assoc, List.singleton_append]

private theorem Cuts.splitFrom_eq {chars : List Char} {segments : List Segment}
    (cuts : Cuts chars segments) :
    splitFrom [] chars = segments ∧
      ((∀ segment ∈ segments.head?, segment.isReference = true) →
        ∀ literal, splitFrom literal chars = flush literal ++ segments) := by
  induction cuts with
  | nil =>
      refine ⟨by rw [splitFrom]; rfl, fun _ literal => ?_⟩
      rw [splitFrom, List.append_nil]
  | @reference body rest target segments read reach cuts ih =>
      have all (literal : List Char) : splitFrom literal ('$' :: (body ++ rest)) =
          flush literal ++ .reference (String.ofList ('$' :: body)) target :: segments := by
        rw [splitFrom]
        simp only [↓reduceIte, reach, List.take_left, read, List.drop_left, ih.1]
      exact ⟨all [], fun _ => all⟩
  | @text literal rest segments nonempty inert cuts next ih =>
      refine ⟨?_, fun head => absurd (head _ rfl) Bool.false_ne_true⟩
      rw [splitFrom_run inert (cuts.stops next), List.append_nil, ih.2 next, flush,
        if_neg (by simpa using nonempty), List.reverse_reverse, List.singleton_append]

theorem split_eq_iff {text : String} {segments : List Segment} :
    split text = segments ↔ Cuts text.toList segments :=
  ⟨fun same => same ▸ cuts_split text, fun cuts => cuts.splitFrom_eq.1⟩

/-! ## What the cuts come to -/

namespace Cuts

variable {chars : List Char} {segments : List Segment}

theorem lossless (cuts : Cuts chars segments) :
    segments.flatMap (fun segment => segment.raw.toList) = chars := by
  induction cuts with
  | nil => rfl
  | reference read reach cuts ih =>
      rw [List.flatMap_cons, ih, Segment.raw, String.toList_ofList, List.cons_append]
  | text nonempty inert cuts next ih =>
      rw [List.flatMap_cons, ih, Segment.raw, String.toList_ofList]

theorem isChain (cuts : Cuts chars segments) :
    segments.IsChain fun segment next => segment.isReference = true ∨ next.isReference = true := by
  induction cuts with
  | nil => exact .nil
  | reference read reach cuts ih => exact List.isChain_cons.mpr ⟨fun _ _ => .inl rfl, ih⟩
  | text nonempty inert cuts next ih =>
      exact List.isChain_cons.mpr ⟨fun segment head => .inr (next segment head), ih⟩

private theorem isAscii_of_reference (cuts : Cuts chars segments) {raw : String}
    {target : Reference} (h : .reference raw target ∈ segments) :
    ∃ body, raw.toList = '$' :: body ∧ ∀ c ∈ '$' :: body, c.toNat < 128 := by
  induction cuts with
  | nil => cases h
  | @reference body rest found segments read reach cuts ih =>
      rcases List.mem_cons.mp h with same | later
      · cases same
        have token : (body ++ rest).take (extent (body ++ rest)) = body := by
          rw [reach, List.take_left]
        refine ⟨body, String.toList_ofList, List.forall_mem_cons.mpr ⟨by decide, ?_⟩⟩
        intro c member
        rw [← token] at member
        rcases Reference.eq_point_or_isIdentifierChar_of_extent c member with rfl | identifier
        · decide
        · exact (Reference.range_of_isIdentifierChar identifier).2.trans_lt (by decide)
      · exact ih later
  | text nonempty inert cuts next ih =>
      rcases List.mem_cons.mp h with same | later
      · cases same
      · exact ih later

private theorem ascii_ends (cuts : Cuts chars segments) {segment : Segment}
    (member : segment ∈ segments) (reference : segment.isReference = true) :
    (∃ c ∈ segment.raw.toList.head?, c.toNat < 128) ∧
      ∃ c ∈ segment.raw.toList.getLast?, c.toNat < 128 := by
  cases segment with
  | text content => cases reference
  | reference raw target =>
      obtain ⟨body, spelled, small⟩ := cuts.isAscii_of_reference member
      rw [Segment.raw, spelled]
      refine ⟨⟨'$', rfl, by decide⟩, ('$' :: body).getLast (by simp), ?_, ?_⟩
      · rw [List.getLast?_eq_some_getLast (by simp)]
        rfl
      · exact small _ (List.getLast_mem _)

theorem ascii (cuts : Cuts chars segments) :
    segments.IsChain fun segment next =>
      (∃ c ∈ segment.raw.toList.getLast?, c.toNat < 128) ∨
        ∃ c ∈ next.raw.toList.head?, c.toNat < 128 :=
  cuts.isChain.imp_of_mem_imp fun _ _ member member' reference =>
    reference.imp (fun first => (cuts.ascii_ends member first).2)
      fun second => (cuts.ascii_ends member' second).1

theorem of_text (cuts : Cuts chars segments) {content : String} (h : .text content ∈ segments) :
    content ≠ "" ∧ ∀ target, ¬OccursIn target content.toList := by
  induction cuts with
  | nil => cases h
  | reference read reach cuts ih =>
      rcases List.mem_cons.mp h with same | later
      · cases same
      · exact ih later
  | text nonempty inert cuts next ih =>
      rcases List.mem_cons.mp h with same | later
      · cases same
        rw [String.toList_ofList]
        exact ⟨fun empty => nonempty (String.ofList_inj.mp empty), inert⟩
      · exact ih later

theorem reach (cuts : Cuts chars segments) {before after : List Segment} {raw : String}
    {target : Reference} (h : segments = before ++ .reference raw target :: after) :
    ∃ body, raw.toList = '$' :: body ∧
      extent (body ++ after.flatMap fun segment => segment.raw.toList) = body.length := by
  induction cuts generalizing before with
  | nil => simp at h
  | @reference body rest found segments read reach cuts ih =>
      cases before with
      | nil =>
          cases h
          exact ⟨body, String.toList_ofList, by rw [cuts.lossless, reach]⟩
      | cons first before => exact ih (List.cons.inj h).2
  | text nonempty inert cuts next ih =>
      cases before with
      | nil => cases h
      | cons first before => exact ih (List.cons.inj h).2

end Cuts

theorem split_of_not_occursIn {text : String} (nonempty : text ≠ "")
    (inert : ∀ target, ¬OccursIn target text.toList) : split text = [.text text] := by
  have cut := Cuts.text (by simpa using nonempty) inert .nil nofun
  rw [List.append_nil, String.ofList_toList] at cut
  exact split_eq_iff.mpr cut

/-! ## References as the scan lists them -/

def Segment.token? : Segment → Option String
  | .text _ => none
  | .reference raw _ => some raw

private theorem filterMap_flush (literal : List Char) :
    (flush literal).filterMap Segment.token? = [] := by
  unfold flush
  split <;> rfl

private theorem tokens_dollar (rest : List Char) :
    Reference.tokens ('$' :: rest) =
      if extent rest = 0 then Reference.tokens rest
      else ('$' :: rest.take (extent rest)) :: Reference.tokens (rest.drop (extent rest)) := by
  rw [Reference.tokens]
  simp

private theorem filterMap_splitFrom {literal chars : List Char}
    (unquoted : ∀ c ∈ chars, c ≠ '"' ∧ c ≠ '\'') :
    (splitFrom literal chars).filterMap Segment.token? =
      ((Reference.tokens chars).filter fun token => (Reference.ofChars? token).isSome).map
        String.ofList := by
  fun_induction splitFrom literal chars with
  | case1 literal =>
      rw [filterMap_flush, Reference.tokens]
      rfl
  | case2 literal rest size token target read ih =>
      have some_left : size ≠ 0 := Reference.extent_ne_zero read
      have later := ih fun c member =>
        unquoted c (List.mem_cons_of_mem _ (List.mem_of_mem_drop member))
      rw [tokens_dollar, if_neg some_left, List.filter_cons_of_pos (by rw [read]; rfl),
        List.map_cons, ← later, List.filterMap_append, filterMap_flush, List.nil_append]
      rfl
  | case3 literal rest size token unread ih =>
      have later := ih fun c member =>
        unquoted c (List.mem_cons_of_mem _ (List.mem_of_mem_drop member))
      rw [tokens_dollar, later]
      split
      · next none_left =>
          have whole : rest.drop size = rest := congrArg rest.drop none_left
          rw [whole]
      · rw [List.filter_cons_of_neg (by rw [unread]; exact Bool.false_ne_true)]
  | case4 literal c rest other ih =>
      obtain ⟨double, single⟩ := unquoted c List.mem_cons_self
      rw [ih fun d member => unquoted d (List.mem_cons_of_mem _ member),
        Reference.tokens_of_plain ⟨double, single, other⟩]

theorem eraseDups_references {text : String}
    (unquoted : ∀ c ∈ text.toList, c ≠ '"' ∧ c ≠ '\'') :
    ((split text).filterMap Segment.token?).eraseDups =
      (Reference.scan text).filter fun raw => (Reference.parse? raw).isSome := by
  have injective : Function.Injective String.ofList := fun _ _ same => String.ofList_inj.mp same
  rw [split, filterMap_splitFrom unquoted, List.eraseDups_map injective, List.eraseDups_filter,
    Reference.scan, List.filter_map]
  simp only [Function.comp_def, Reference.parse?, String.toList_ofList]

/-! ## Filling in -/

theorem join_fill_of_text {segments : List Segment} (scope : Scope)
    (plain : ∀ segment ∈ segments, segment.isReference = false) :
    segments.map (Segment.fill scope) = segments.map Segment.raw := by
  refine List.map_congr_left fun segment member => ?_
  cases segment with
  | text content => rfl
  | reference raw target => cases plain _ member

theorem join_raw_split (text : String) : String.join ((split text).map Segment.raw) = text := by
  rw [← String.toList_inj, String.toList_join, List.flatMap_map]
  exact (cuts_split text).lossless

theorem fill_eq (scope : Scope) (text : String) :
    fill scope text =
      match Reference.parse? (Text.trim text) with
      | some target => (scope target).getD .null
      | none => .string (String.join ((split text).map (Segment.fill scope))) := by
  unfold fill
  cases Reference.parse? (Text.trim text) with
  | some target => rfl
  | none =>
      dsimp only
      split
      · rfl
      · next plain =>
          have plain : ∀ segment ∈ split text, segment.isReference = false := by simpa using plain
          rw [join_fill_of_text scope plain, join_raw_split]

theorem fill_of_not_occursIn {text : String} (inert : ∀ target, ¬OccursIn target text.toList)
    (scope : Scope) : fill scope text = .string text := by
  have unread : Reference.parse? (Text.trim text) = none := by
    refine Option.eq_none_iff_forall_ne_some.mpr fun target whole => ?_
    exact inert target (mem_split.mp (exists_mem_split whole))
  have plain : ∀ segment ∈ split text, segment.isReference = false := by
    intro segment member
    cases segment with
    | text content => rfl
    | reference raw target => exact absurd (mem_split.mp ⟨raw, member⟩) (inert target)
  rw [fill_eq, unread]
  simp only [join_fill_of_text scope plain, join_raw_split]

/-! ## Splitting and filling in -/

/-- How a text is split, and what splitting it means for filling it in. -/
structure SplitsExactly (text : String) : Prop where
  lossless : String.join ((split text).map Segment.raw) = text
  reads : ∀ raw target, .reference raw target ∈ split text → Reference.parse? raw = some target
  nonempty : ∀ content, .text content ∈ split text → content ≠ ""
  apart : (split text).IsChain fun segment next =>
    segment.isReference = true ∨ next.isReference = true
  /-- Each cut lies beside a character of one byte, so a splitter of bytes makes it too. -/
  ascii : (split text).IsChain fun segment next =>
    (∃ c ∈ segment.raw.toList.getLast?, c.toNat < 128) ∨
      ∃ c ∈ next.raw.toList.head?, c.toNat < 128
  settled : ∀ content, .text content ∈ split text → split content = [.text content]
  reach : ∀ before raw target after, split text = before ++ .reference raw target :: after →
    ∃ body, raw.toList = '$' :: body ∧
      extent (body ++ after.flatMap fun segment => segment.raw.toList) = body.length
  scanned : (∀ c ∈ text.toList, c ≠ '"' ∧ c ≠ '\'') →
    ((split text).filterMap Segment.token?).eraseDups =
      (Reference.scan text).filter fun raw => (Reference.parse? raw).isSome
  unchanged : (∀ target, ¬OccursIn target text.toList) →
    ∀ scope, Json.fill scope (.string text) = .string text
  filled : ∀ scope, Json.fill scope (.string text) =
    match Reference.parse? (Text.trim text) with
    | some target => (scope target).getD .null
    | none => .string (String.join ((split text).map (Segment.fill scope)))
  once : ∀ scope other : Scope,
    (∀ target, OccursIn target text.toList → scope target = other target) →
      Json.fill scope (.string text) = Json.fill other (.string text)

/-- Every text is split without loss into references that cannot go on and literal runs that
stay as they are, and what the references stand for is put in without being read again. -/
theorem splits_exactly (text : String) : SplitsExactly text where
  lossless := join_raw_split text
  reads _ _ := parse?_of_mem_split
  nonempty _ member := ((cuts_split text).of_text member).1
  apart := (cuts_split text).isChain
  ascii := (cuts_split text).ascii
  settled content member :=
    have ⟨nonempty, inert⟩ := (cuts_split text).of_text member
    split_of_not_occursIn nonempty inert
  reach _ _ _ _ same := (cuts_split text).reach same
  scanned := eraseDups_references
  unchanged inert scope := by rw [Json.fill, fill_of_not_occursIn inert]
  filled scope := by rw [Json.fill, fill_eq]
  once scope other agree := by
    rw [Json.fill, Json.fill]
    exact fill_congr fun raw target member => agree target (mem_split.mp ⟨raw, member⟩)

end Template

end Tollgate

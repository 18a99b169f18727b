import Mathlib.Data.List.Forall2
import P4LS.Client.Snippet
import P4LS.Library.Lines
import P4LS.Library.Outcome

/-!
# The edits of snippet completion

The text edit of a proposal is to cover the word in front of the caret, and to put the lines of
the snippet there, each but the first behind the indentation of the caret's line.  The loop that
joins the lines takes a line for the first one as long as nothing has been written, so blank
lines at the start of a snippet lose their line ends and the indentation behind them.
-/

namespace P4LS.Client

open Backtracking Lines

/-- What the platform documents of a text without carriage returns: a line ends at a line feed. -/
structure IDocument.Documented (document : IDocument) : Prop where
  getLineOfOffset : unit '\r' ∉ document.get → ∀ offset : Nat, offset ≤ document.get.length →
    document.getLineOfOffset offset = some ↑((document.get.take offset).count (unit '\n'))
  getLineOffset : unit '\r' ∉ document.get → ∀ line start : Nat,
    lineStart (unit '\n') document.get line = some start → document.getLineOffset line = some ↑start

/-- The offset of a position. -/
def IDocument.offsetOf (document : IDocument) (position : Position) : Option Int :=
  (document.getLineOffset position.line).map (· + position.character)

/-- The text between the start of the caret's line and the caret. -/
def caretLine (text : JString) (offset : Nat) : JString := lineBefore (unit '\n') text offset

/-- The white space the line starts with. -/
def indentOf (line : JString) : JString := line.takeWhile isWhitespace

/-- The word characters at the end of the line, behind the indentation. -/
def typedOf (line : JString) : JString := (line.dropWhile isWhitespace).rtakeWhile isWord

/-- The edit covers exactly the word in front of the caret, and its text is the lines of the
snippet, each but the first behind a line end and the indentation. -/
structure ExactEdit (document : IDocument) (offset : Nat) (snippet : Snippet) (edit : TextEdit) :
    Prop where
  line : edit.range.start.line = edit.range.stop.line
  character : 0 ≤ edit.range.start.character
  start : document.offsetOf edit.range.start =
    some ↑(offset - (typedOf (caretLine document.get offset)).length)
  stop : document.offsetOf edit.range.stop = some ↑offset
  covers : (document.get.take offset).drop
    (offset - (typedOf (caretLine document.get offset)).length) =
      typedOf (caretLine document.get offset)
  newText : edit.newText =
    List.intercalate (unit '\n' :: indentOf (caretLine document.get offset))
      snippet.replacementLines
  lines : edit.newText.count (unit '\n') + 1 = snippet.replacementLines.length

/-! ## The text of the edit -/

namespace Snippet

variable {lineIndentation builder : JString} {lines : List JString}

theorem appendLine_ne_nil (h : builder ≠ []) (line : JString) :
    appendLine lineIndentation builder line =
      builder ++ (unit '\n' :: lineIndentation) ++ line := by
  rw [appendLine, if_neg fun hlength => h (List.length_eq_zero_iff.mp hlength)]
  simp

theorem appendLine_nil (line : JString) : appendLine lineIndentation [] line = line := rfl

/-- Once something has been written every line is put behind a line end and the indentation. -/
theorem foldl_appendLine (h : builder ≠ []) (line : JString) :
    lines.foldl (appendLine lineIndentation) (builder ++ line) =
      builder ++ List.intercalate (unit '\n' :: lineIndentation) (line :: lines) := by
  induction lines generalizing builder line with
  | nil => rw [List.foldl_nil, List.intercalate_singleton]
  | cons next lines ih =>
    have hne : builder ++ line ≠ [] := fun hnil => h (List.append_eq_nil_iff.mp hnil).1
    rw [List.foldl_cons, appendLine_ne_nil hne, List.intercalate_cons_cons, ih (by simp)]
    simp only [List.append_assoc]

theorem foldl_appendLine_first {first : JString} (h : first ≠ []) :
    lines.foldl (appendLine lineIndentation) first =
      List.intercalate (unit '\n' :: lineIndentation) (first :: lines) := by
  cases lines with
  | nil => rw [List.foldl_nil, List.intercalate_singleton]
  | cons next lines =>
    rw [List.foldl_cons, appendLine_ne_nil h, List.intercalate_cons_cons,
      foldl_appendLine (by simp)]

/-- The loop writes a line end in front of a line, or none. -/
theorem count_foldl_appendLine (hindent : unit '\n' ∉ lineIndentation)
    (hlines : ∀ line ∈ lines, unit '\n' ∉ line) :
    (lines.foldl (appendLine lineIndentation) builder).count (unit '\n') ≤
      builder.count (unit '\n') + lines.length := by
  induction lines generalizing builder with
  | nil => exact Nat.le_refl _
  | cons line lines ih =>
    obtain ⟨hline, hmore⟩ := List.forall_mem_cons.mp hlines
    have hrest := @ih (appendLine lineIndentation builder line) hmore
    have hround : (appendLine lineIndentation builder line).count (unit '\n') ≤
        builder.count (unit '\n') + 1 := by
      by_cases hnil : builder = []
      · rw [hnil, appendLine_nil, List.count_eq_zero.mpr hline]
        exact Nat.zero_le _
      · rw [appendLine_ne_nil hnil, List.count_append, List.count_append, List.count_cons_self,
          List.count_eq_zero.mpr hline, List.count_eq_zero.mpr hindent]
    rw [List.foldl_cons, List.length_cons]
    omega

theorem count_intercalate (hindent : unit '\n' ∉ lineIndentation) (hne : lines ≠ [])
    (hlines : ∀ line ∈ lines, unit '\n' ∉ line) :
    (List.intercalate (unit '\n' :: lineIndentation) lines).count (unit '\n') + 1 =
      lines.length := by
  induction lines with
  | nil => exact absurd rfl hne
  | cons line lines ih =>
    obtain ⟨hline, hmore⟩ := List.forall_mem_cons.mp hlines
    cases lines with
    | nil =>
      rw [List.intercalate_singleton, List.count_eq_zero.mpr hline]
      rfl
    | cons next lines =>
      have hrest := ih (List.cons_ne_nil _ _) hmore
      rw [List.intercalate_cons_cons, List.count_append, List.count_append, List.count_cons_self,
        List.count_eq_zero.mpr hline, List.count_eq_zero.mpr hindent, List.length_cons, ← hrest]
      omega

/-- The snippet has one line, or its first line is not blank. -/
def FirstLineShows (snippet : Snippet) : Prop :=
  snippet.replacementLines.length = 1 ∨ snippet.replacementLines.head? ≠ some []

/-- The lines are joined as they should be if and only if there is one of them or the first is
not blank; else there are fewer lines than the snippet has. -/
theorem createReplacement_iff {snippet : Snippet} (hindent : unit '\n' ∉ lineIndentation)
    (hne : snippet.replacementLines ≠ [])
    (hlines : ∀ line ∈ snippet.replacementLines, unit '\n' ∉ line) :
    snippet.createReplacement lineIndentation =
        List.intercalate (unit '\n' :: lineIndentation) snippet.replacementLines ↔
      snippet.FirstLineShows := by
  unfold createReplacement FirstLineShows
  cases hreplacement : snippet.replacementLines with
  | nil => exact absurd hreplacement hne
  | cons first lines =>
    rw [hreplacement] at hlines
    cases lines with
    | nil => simp
    | cons next lines =>
      have hlong : (first :: next :: lines).length > 1 := by
        rw [List.length_cons, List.length_cons]
        omega
      show (if (first :: next :: lines).length > 1 then _ else _) = _ ↔ _
      rw [if_pos hlong, List.foldl_cons, appendLine_nil]
      by_cases hfirst : first = []
      · refine iff_of_false (fun heq => ?_) fun hshows => ?_
        · obtain ⟨_, hmore⟩ := List.forall_mem_cons.mp hlines
          obtain ⟨hnext, hmore⟩ := List.forall_mem_cons.mp hmore
          have hcount := count_intercalate hindent (List.cons_ne_nil _ _) hlines
          have hfewer := @count_foldl_appendLine _ next _ hindent hmore
          rw [← heq, hfirst, List.foldl_cons, appendLine_nil] at hcount
          rw [List.count_eq_zero.mpr hnext] at hfewer
          rw [List.length_cons, List.length_cons] at hcount
          omega
        · rw [hfirst] at hshows
          rcases hshows with hone | hhead
          · rw [List.length_cons, List.length_cons] at hone
            omega
          · exact hhead rfl
      · rw [foldl_appendLine_first hfirst]
        exact iff_of_true rfl (.inr fun heq => hfirst (Option.some.inj heq))

end Snippet

/-! ## The word in front of the caret -/

theorem length_takeWhile_eq (p : UInt16 → Bool) (s : JString) :
    (s.takeWhile p).length = (s.findIdx? (fun c => !p c)).getD s.length := by
  induction s with
  | nil => rfl
  | cons c s ih =>
    rw [List.findIdx?_cons]
    by_cases hc : p c = true
    · rw [List.takeWhile_cons_of_pos hc, List.length_cons, ih, hc]
      cases s.findIdx? (fun c => !p c) <;> rfl
    · rw [Bool.not_eq_true] at hc
      rw [List.takeWhile_cons_of_neg (by rw [hc]; exact Bool.false_ne_true), hc]
      rfl

theorem lastIndexOf_eq (s : JString) (c : UInt16) :
    lastIndexOf s c + 1 = s.length - (s.rtakeWhile (· ≠ c)).length := by
  have hlength := length_takeWhile_eq (fun d => decide (d ≠ c)) s.reverse
  have hsame : (fun d : UInt16 => !decide (d ≠ c)) = (· == c) := by
    funext d
    by_cases hd : d = c <;> simp [hd]
  rw [hsame, List.length_reverse] at hlength
  rw [lastIndexOf, List.rtakeWhile, List.length_reverse, hlength]
  cases s.reverse.findIdx? (· == c) with
  | some i =>
    simp only [Option.getD_some]
    omega
  | none =>
    simp only [Option.getD_none]
    omega

theorem drop_length_sub_rtakeWhile (p : UInt16 → Bool) (s : JString) :
    s.drop (s.length - (s.rtakeWhile p).length) = s.rtakeWhile p :=
  (List.suffix_iff_eq_drop.mp (List.rtakeWhile_suffix p s)).symm

theorem substring_caretLine (s : JString) :
    substring s (lastIndexOf s (unit '\n') + 1) s.length =
      .ok (s.rtakeWhile (· ≠ unit '\n')) := by
  have hle := (List.rtakeWhile_suffix (fun c => decide (c ≠ unit '\n')) s).length_le
  rw [lastIndexOf_eq, substring, if_pos ⟨by omega, by omega, by omega⟩, Int.toNat_natCast,
    List.take_length]
  congr 1
  rw [← Int.natCast_sub hle, Int.toNat_natCast, drop_length_sub_rtakeWhile]

theorem substring_take {s : JString} {offset : Nat} (h : offset ≤ s.length) :
    substring s 0 offset = .ok (s.take offset) := by
  rw [substring, if_pos ⟨by omega, by omega, by omega⟩, Int.toNat_natCast, Int.toNat_zero,
    List.drop_zero]

/-- The expression matches a line without line terminators: the indentation, as little as
possible, and the word in front of the caret. -/
theorem fullMatch_endsWithWord {line : JString} (h : line.all isDot = true) :
    fullMatch endsWithWord line =
      some [indentOf line, (line.dropWhile isWhitespace).rdropWhile isWord, typedOf line] := by
  have hrest : (line.dropWhile isWhitespace).all isDot = true := by
    rw [List.all_eq_true] at h ⊢
    exact fun c hc => h c ((List.dropWhile_suffix _).subset hc)
  exact fullMatch_greedy (fullMatch_lazy_greedy hrest)

theorem typedOf_suffix (line : JString) : typedOf line <:+ line :=
  (List.rtakeWhile_suffix _ _).trans (List.dropWhile_suffix _)

theorem caretLine_suffix (text : JString) (offset : Nat) :
    caretLine text offset <:+ text.take offset := List.rtakeWhile_suffix _ _

/-- An ASCII character that ends no line is matched by the dot. -/
theorem isDot_of_ascii {c : UInt16} (hascii : c < 128) (hr : c ≠ unit '\r') (hn : c ≠ unit '\n') :
    isDot c = true := by
  have hnot : ∀ d : UInt16, 128 ≤ d → c ≠ d := by
    intro d hd heq
    rw [heq] at hascii
    exact absurd hascii (UInt16.not_lt.mpr hd)
  simp [isDot, hr, hn, hnot 0x85 (by decide), hnot 0x2028 (by decide), hnot 0x2029 (by decide)]

section Caret

variable {document : IDocument} {offset : Nat}

theorem not_mem_indentOf : unit '\n' ∉ indentOf (caretLine document.get offset) := by
  obtain ⟨_, _, _, hno⟩ := exists_take_eq (unit '\n') document.get offset
  exact fun hmem => hno ((List.takeWhile_prefix _).subset hmem)

theorem caretLine_all_dot (hascii : ∀ c ∈ document.get, c < 128)
    (hr : unit '\r' ∉ document.get) : (caretLine document.get offset).all isDot = true := by
  rw [List.all_eq_true]
  intro c hc
  have hmem := (List.take_prefix _ _).subset ((caretLine_suffix _ _).subset hc)
  obtain ⟨_, _, _, hno⟩ := exists_take_eq (unit '\n') document.get offset
  refine isDot_of_ascii (hascii c hmem) (fun heq => hr (heq ▸ hmem)) fun heq => ?_
  rw [heq] at hc
  exact hno hc

/-- The edit that ends at the caret, on a line and from the offset the line starts at. -/
def editAt (offset line start : Int) (typed newText : JString) : TextEdit :=
  ⟨⟨⟨line, offset - start - typed.length⟩, ⟨line, offset - start⟩⟩, newText⟩

/-- What the document says of the caret. -/
theorem exists_caret (hdocument : document.Documented) (hr : unit '\r' ∉ document.get)
    (hoffset : offset ≤ document.get.length) :
    ∃ line start : Int, document.getLineOfOffset offset = some line ∧
      document.getLineOffset line = some start ∧
      start = offset - (caretLine document.get offset).length := by
  have hline := hdocument.getLineOfOffset hr offset hoffset
  have hstart := hdocument.getLineOffset hr _ _ (lineStart_count (unit '\n') hoffset)
  have hle := length_lineBefore_le (unit '\n') document.get offset
  exact ⟨_, _, hline, hstart, Int.natCast_sub hle⟩

theorem convertToCompletionProposal_eq {info : LSPDocumentInfo} (hinfo : info.document = document)
    {line start : Int} (hline : document.getLineOfOffset offset = some line)
    (hstart : document.getLineOffset line = some start) (snippet : Snippet)
    (typed lineIndentation : JString) :
    snippet.convertToCompletionProposal offset info typed lineIndentation =
      some ⟨document, offset, ⟨snippet.display, snippet.kind, .snippet,
        editAt offset line start typed (snippet.createReplacement lineIndentation)⟩⟩ := by
  rw [Snippet.convertToCompletionProposal, hinfo, hline, Option.bind_eq_bind, Option.bind_some,
    hstart, Option.bind_some]
  rfl

/-- The edit of a proposal is exact if and only if its text is. -/
theorem exactEdit_iff (hoffset : offset ≤ document.get.length) {snippet : Snippet}
    (hne : snippet.replacementLines ≠ [])
    (hlines : ∀ line ∈ snippet.replacementLines, unit '\n' ∉ line) {line start : Int}
    (hline : document.getLineOffset line = some start)
    (hstart : start = offset - (caretLine document.get offset).length) {newText : JString} :
    ExactEdit document offset snippet
        (editAt offset line start (typedOf (caretLine document.get offset)) newText) ↔
      newText = List.intercalate (unit '\n' :: indentOf (caretLine document.get offset))
        snippet.replacementLines := by
  have htyped := (typedOf_suffix (caretLine document.get offset)).length_le
  have hcaret := length_lineBefore_le (unit '\n') document.get offset
  have hsuffix := (typedOf_suffix _).trans (caretLine_suffix document.get offset)
  constructor
  · exact fun h => h.newText
  · intro htext
    refine ⟨rfl, ?_, ?_, ?_, ?_, htext, ?_⟩
    · show 0 ≤ (offset : Int) - start - _
      omega
    · have hsum :
          start + ((offset : Int) - start - (typedOf (caretLine document.get offset)).length)
          = ↑(offset - (typedOf (caretLine document.get offset)).length) := by
        have hlength := hsuffix.length_le
        rw [List.length_take_of_le hoffset] at hlength
        omega
      rw [editAt, IDocument.offsetOf, hline, Option.map_some, hsum]
    · have hsum : start + ((offset : Int) - start) = offset := by omega
      rw [editAt, IDocument.offsetOf, hline, Option.map_some, hsum]
    · have hdrop := List.suffix_iff_eq_drop.mp hsuffix
      rw [List.length_take_of_le hoffset] at hdrop
      exact hdrop.symm
    · rw [htext]
      exact Snippet.count_intercalate not_mem_indentOf hne hlines

/-- The proposal of a snippet at a caret, from the text of the line in front of it. -/
def proposalAt (document : IDocument) (offset line start : Int) (caret : JString)
    (snippet : Snippet) : LSCompletionProposal :=
  ⟨document, offset, ⟨snippet.display, snippet.kind, .snippet,
    editAt offset line start (typedOf caret) (snippet.createReplacement (indentOf caret))⟩⟩

/-- Each snippet that starts with the word in front of the caret gets one proposal. -/
theorem computeCompletionProposals_eq (hascii : ∀ c ∈ document.get, c < 128)
    (hr : unit '\r' ∉ document.get) (hoffset : offset ≤ document.get.length)
    {getLSPDocumentInfosFor : IDocument → List LSPDocumentInfo} {info : LSPDocumentInfo}
    {infos : List LSPDocumentInfo} (hinfos : getLSPDocumentInfosFor document = info :: infos)
    (hinfo : info.document = document) {line start : Int}
    (hline : document.getLineOfOffset offset = some line)
    (hstart : document.getLineOffset line = some start) (snippets : List Snippet) :
    computeCompletionProposals snippets getLSPDocumentInfosFor document offset =
      .ok (((snippets.filter (·.matchesPrefix (typedOf (caretLine document.get offset)))).map
        (proposalAt document offset line start (caretLine document.get offset))).map some) := by
  have hmatch : fullMatch endsWithWord
      ((document.get.take offset).rtakeWhile (· ≠ unit '\n')) = _ :=
    fullMatch_endsWithWord (caretLine_all_dot hascii hr)
  have hconvert := convertToCompletionProposal_eq hinfo hline hstart
  refine Except.bind_eq_ok.mpr ⟨_, substring_take hoffset,
    Except.bind_eq_ok.mpr ⟨_, substring_caretLine _, ?_⟩⟩
  simp only [hmatch, hinfos, hconvert]
  rw [List.map_map]
  exact List.mapM_pure

/-- Each snippet that starts with the word in front of the caret gets one proposal, in the order
they are registered.  Its edit is exact if and only if the snippet has one line or its first line
is not blank. -/
theorem computeCompletionProposals_exact_iff (hdocument : document.Documented)
    (hascii : ∀ c ∈ document.get, c < 128) (hr : unit '\r' ∉ document.get)
    (hoffset : offset ≤ document.get.length)
    {getLSPDocumentInfosFor : IDocument → List LSPDocumentInfo}
    (hconnected : getLSPDocumentInfosFor document ≠ [])
    (hinfos : ∀ info ∈ getLSPDocumentInfosFor document, info.document = document)
    {snippets : List Snippet}
    (hsnippets : ∀ snippet ∈ snippets, snippet.replacementLines ≠ [] ∧
      ∀ line ∈ snippet.replacementLines, unit '\n' ∉ line) :
    ∃ proposals,
      computeCompletionProposals snippets getLSPDocumentInfosFor document offset =
        .ok (proposals.map some) ∧
      List.Forall₂ (fun snippet proposal =>
          ExactEdit document offset snippet proposal.item.textEdit ↔ snippet.FirstLineShows)
        (snippets.filter (·.matchesPrefix (typedOf (caretLine document.get offset))))
        proposals := by
  obtain ⟨info, infos, hcons⟩ := List.exists_cons_of_ne_nil hconnected
  have hinfo : info.document = document := hinfos info (by rw [hcons]; exact List.mem_cons_self)
  obtain ⟨line, start, hline, hstart, hcaret⟩ := exists_caret hdocument hr hoffset
  refine ⟨_, computeCompletionProposals_eq hascii hr hoffset hcons hinfo hline hstart snippets, ?_⟩
  rw [List.forall₂_map_right_iff, List.forall₂_same]
  intro snippet hmem
  obtain ⟨hne, hlines⟩ := hsnippets snippet (List.mem_of_mem_filter hmem)
  exact (exactEdit_iff hoffset hne hlines hstart hcaret).trans
    (Snippet.createReplacement_iff not_mem_indentOf hne hlines)

end Caret

/-! ## Documents of a text -/

/-- The document of a text whose lines end in line feeds. -/
def IDocument.ofText (text : JString) : IDocument where
  get := text
  getLineOfOffset offset :=
    if 0 ≤ offset ∧ offset ≤ text.length then
      some ↑((text.take offset.toNat).count (unit '\n'))
    else
      none
  getLineOffset line :=
    if 0 ≤ line then (lineStart (unit '\n') text line.toNat).map Int.ofNat else none

theorem documented_ofText (text : JString) : (IDocument.ofText text).Documented where
  getLineOfOffset _ offset hoffset := by
    have hle : offset ≤ text.length := hoffset
    show (if 0 ≤ (offset : Int) ∧ (offset : Int) ≤ text.length then _ else _) = _
    rw [if_pos ⟨by omega, by omega⟩, Int.toNat_natCast]
    rfl
  getLineOffset _ line start h := by
    have hstart : lineStart (unit '\n') text line = some start := h
    have hline : 0 ≤ (line : Int) := Int.natCast_nonneg line
    show (if 0 ≤ (line : Int) then (lineStart (unit '\n') text (line : Int).toNat).map Int.ofNat
      else none) = _
    rw [if_pos hline, Int.toNat_natCast, hstart]
    rfl

theorem computeCompletionProposals_exact_iff_declaration :
    ∃ proposals,
      computeCompletionProposals
          [⟨literal "parser", .snippet, [literal "parser $0($1) \x7b", [], literal "\x7d"]⟩]
          (fun document => [⟨document⟩]) (IDocument.ofText (literal "x\n\tpar")) 6 =
        .ok (proposals.map some) ∧
      List.Forall₂ (fun snippet proposal =>
          ExactEdit (IDocument.ofText (literal "x\n\tpar")) 6 snippet proposal.item.textEdit ↔
            snippet.FirstLineShows)
        (([⟨literal "parser", .snippet, [literal "parser $0($1) \x7b", [], literal "\x7d"]⟩] :
          List Snippet).filter (·.matchesPrefix (typedOf (caretLine (literal "x\n\tpar") 6))))
        proposals :=
  computeCompletionProposals_exact_iff (documented_ofText (literal "x\n\tpar"))
    (fun c hc => of_decide_eq_true (List.all_eq_true.mp
      (show (literal "x\n\tpar").all (decide <| · < 128) = true by decide) c hc))
    (by decide) (by decide) (List.cons_ne_nil _ _)
    (fun info hmem => by rw [List.mem_singleton.mp hmem]) (by decide)

/-- A snippet of a blank line and `x` is put in as `x` alone. -/
theorem not_exactEdit_blank :
    computeCompletionProposals [⟨literal "parser", .snippet, [[], literal "x"]⟩]
        (fun document => [⟨document⟩]) (IDocument.ofText (literal "\tp")) 2 =
      .ok [some ⟨IDocument.ofText (literal "\tp"), 2,
        ⟨literal "parser", .snippet, .snippet, ⟨⟨⟨0, 1⟩, ⟨0, 2⟩⟩, literal "x"⟩⟩⟩] ∧
      ¬ExactEdit (IDocument.ofText (literal "\tp")) 2
        ⟨literal "parser", .snippet, [[], literal "x"]⟩ ⟨⟨⟨0, 1⟩, ⟨0, 2⟩⟩, literal "x"⟩ := by
  refine ⟨rfl, fun hexact => ?_⟩
  have hlines := hexact.lines
  revert hlines
  decide

end P4LS.Client

import P4LS.Lexer.Tokens

/-!
# Comments and skipped lines

A block comment is skipped up to its first `*/`, and the position moves over
every character of it.  A `//` comment and a `#` line are skipped with
`istream::get(streambuf&)`, which fails when nothing is left of the line: one
character of a line is always consumed before, so a line that ends there takes
the rest of the text with it, and a `#` line without characters takes the line
behind it.
-/

namespace P4LS

open Bytes

namespace Lexer

/-! ## Lines -/

/-- When a `//` comment with this body leaves the tokens of the text behind it. -/
def CommentSkipped (body rest : Bytes) : Prop := body ≠ [] ∨ tokenStart rest = some []

/-- When a `#` line with this body leaves the tokens of the text behind it. -/
def LocationSkipped (width : Int32) (body rest : Bytes) : Prop :=
  match body with
  | [] => tokens width (afterLine rest) = tokens width rest
  | [_] => tokenStart rest = some []
  | _ :: _ :: _ => True

/-- For the empty body it is enough that the first token of the text begins at the same place
without the first line. -/
theorem locationSkipped_nil (width : Int32) {rest : Bytes}
    (h : tokenStart (afterLine rest) = tokenStart rest) : LocationSkipped width [] rest :=
  tokens_congr h

theorem afterLine_newline (rest : Bytes) : afterLine (ch '\n' :: rest) = [] := by
  simp [afterLine]

theorem afterLine_append {body : Bytes} (h : ch '\n' ∉ body) (hne : body ≠ []) (rest : Bytes) :
    afterLine (body ++ ch '\n' :: rest) = ch '\n' :: rest := by
  have hbody : ∀ c ∈ body, (c != ch '\n') = true := by
    intro c hc
    rw [bne_iff_ne]
    intro heq
    exact h (heq ▸ hc)
  rw [afterLine, List.takeWhile_append_of_pos hbody, List.dropWhile_append_of_pos hbody, if_neg]
  · simp
  · simp [hne]

theorem tokens_newline (width : Int32) (rest : Bytes) :
    tokens width (ch '\n' :: rest) = tokens width rest :=
  tokens_congr (tokenStart_space (by decide) rest)

theorem tokens_comment_iff (width : Int32) {body : Bytes} (h : ch '\n' ∉ body) (rest : Bytes) :
    tokens width (ch '/' :: ch '/' :: (body ++ ch '\n' :: rest)) = tokens width rest ↔
      CommentSkipped body rest := by
  rw [tokens_congr (tokenStart_line _), CommentSkipped]
  by_cases hbody : body = []
  · rw [hbody, List.nil_append, afterLine_newline, tokens_nil tokenStart_nil, eq_comm,
      tokens_eq_nil_iff]
    simp
  · rw [afterLine_append h hbody, tokens_newline]
    simp [hbody]

theorem tokens_location_iff (width : Int32) {body : Bytes} (h : ch '\n' ∉ body) (rest : Bytes) :
    tokens width (ch '#' :: (body ++ ch '\n' :: rest)) = tokens width rest ↔
      LocationSkipped width body rest := by
  rw [tokens_congr (tokenStart_location _)]
  match body with
  | [] => exact Iff.rfl
  | [c] =>
    rw [List.singleton_append, List.tail_cons, afterLine_newline, tokens_nil tokenStart_nil,
      eq_comm, tokens_eq_nil_iff]
    exact Iff.rfl
  | c :: d :: body =>
    have hbody : ch '\n' ∉ d :: body := fun hmem => h (List.mem_cons_of_mem c hmem)
    rw [List.cons_append, List.tail_cons, afterLine_append hbody (List.cons_ne_nil d body),
      tokens_newline]
    exact iff_of_true rfl trivial

theorem eof_not_mem_line {body rest : Bytes} (hbody : Ascii body) (hrest : Ascii rest) :
    EOF ∉ body ++ ch '\n' :: rest := by
  have hnewline : EOF ≠ ch '\n' := by decide
  simp [hnewline, eof_not_mem hbody, eof_not_mem hrest]

/-- What a line comment and a `#` line leave of the tokens of the text behind them. -/
theorem lines_skipped_iff {lx lx' : Lexer} {body rest : Bytes} (hbody : Ascii body)
    (hrest : Ascii rest) (hline : ch '\n' ∉ body)
    (h : StartsAt lx (ch '/' :: ch '/' :: (body ++ ch '\n' :: rest)))
    (h' : StartsAt lx' (ch '#' :: (body ++ ch '\n' :: rest))) :
    (SameTokens lx (fresh lx.width rest) ↔ CommentSkipped body rest) ∧
      (SameTokens lx' (fresh lx'.width rest) ↔ LocationSkipped lx'.width body rest) := by
  have hne := eof_not_mem_line hbody hrest
  have hslash : EOF ≠ ch '/' := by decide
  have hhash : EOF ≠ ch '#' := by decide
  constructor
  · rw [h.sameTokens_fresh (by simp [hslash, hne]) (eof_not_mem hrest), tokens_comment_iff _ hline]
  · rw [h'.sameTokens_fresh (by simp [hhash, hne]) (eof_not_mem hrest),
      tokens_location_iff _ hline]

theorem lines_skipped_iff_word :
    (SameTokens (start (str "// a\nb")) (fresh 32 (str "b")) ↔
        CommentSkipped (str " a") (str "b")) ∧
      (SameTokens (start (str "# a\nb")) (fresh 32 (str "b")) ↔
        LocationSkipped 32 (str " a") (str "b")) :=
  lines_skipped_iff (by decide) (by decide) (by decide) (startsAt_start (str "// a\nb"))
    (startsAt_start (str "# a\nb"))

/-- Behind `//` and a line end everything is lost. -/
theorem not_skipped_empty_comment :
    StartsAt (start (str "//\nb")) (ch '/' :: ch '/' :: (str "" ++ ch '\n' :: str "b")) ∧
      ¬SameTokens (start (str "//\nb")) (fresh 32 (str "b")) := by
  have hstarts : StartsAt (start (str "//\nb"))
      (ch '/' :: ch '/' :: (str "" ++ ch '\n' :: str "b")) := startsAt_start (str "//\nb")
  refine ⟨hstarts, ?_⟩
  rw [hstarts.sameTokens_fresh (by decide) (by decide)]
  decide +kernel

/-! ## Block comments -/

/-- The row and the column of the lookahead. -/
def position (lx : Lexer) : Nat × Nat := (lx.row, lx.col)

/-- The position of the next character, which is `c`. -/
def stepPosition (p : Nat × Nat) (c : UInt8) : Nat × Nat :=
  if c = ch '\n' then (p.1 + 1, 0) else (p.1, p.2 + 1)

/-- `lx'` has read `w` since `lx`, and the position has moved over it. -/
structure Moves (lx : Lexer) (w : Bytes) (lx' : Lexer) : Prop where
  text : lx.pending.tail = w ++ lx'.pending.tail
  position : lx'.position = w.foldl stepPosition lx.position

theorem advance_position {lx : Lexer} (h : lx.last ≠ EOF) :
    lx.advance.position = stepPosition lx.position lx.advance.last := by
  rw [advance_last h, advance, if_neg h, stepPosition]
  split <;> rfl

theorem moves_advance {lx : Lexer} (hc : lx.Clean) (h : lx.advance.last ≠ EOF) :
    Moves lx [lx.advance.last] lx.advance where
  text := by
    rw [← pending_advance hc, List.singleton_append]
    exact pending_eq_cons _ h
  position := by
    have hlast : lx.last ≠ EOF := by
      intro heof
      rw [advance_of_eof heof] at h
      exact h heof
    exact advance_position hlast

theorem Moves.trans {lx₁ lx₂ lx₃ : Lexer} {w w' : Bytes} (h : Moves lx₁ w lx₂)
    (h' : Moves lx₂ w' lx₃) : Moves lx₁ (w ++ w') lx₃ where
  text := by rw [h.text, h'.text, List.append_assoc]
  position := by rw [h'.position, h.position, List.foldl_append]

/-- Overwriting the lookahead does not move. -/
theorem Moves.close {lx lx' : Lexer} {w : Bytes} (h : Moves lx w lx') (hne : lx'.last ≠ EOF) :
    Moves lx w { lx' with last := 0 } where
  text := by
    rw [h.text, pending_eq_cons lx' hne]
    simp [pending, hne, show (0 : UInt8) ≠ EOF by decide]
  position := h.position

theorem exists_moves_skipStars {lx : Lexer} (hc : lx.Clean) (h : lx.skipStars.last ≠ EOF) :
    ∃ w, Moves lx w lx.skipStars := by
  fun_induction skipStars lx with
  | case1 lx hstar ih =>
    obtain ⟨w, hw⟩ := ih hc.advance h
    have hne : lx.advance.last ≠ EOF := by
      rw [hstar]
      decide
    exact ⟨_, (moves_advance hc hne).trans hw⟩
  | case2 lx _ => exact ⟨_, moves_advance hc h⟩

theorem exists_moves_blockRound {lx : Lexer} (hc : lx.Clean) (h : lx.blockRound.last ≠ EOF) :
    ∃ w, Moves lx w lx.blockRound := by
  unfold blockRound at h ⊢
  by_cases hstar : lx.advance.last = ch '*'
  · rw [if_pos hstar] at h ⊢
    have hfirst := moves_advance hc (by rw [hstar]; decide)
    by_cases hslash : lx.advance.skipStars.last = ch '/'
    · have hne : lx.advance.skipStars.last ≠ EOF := by
        rw [hslash]
        decide
      rw [if_pos hslash]
      obtain ⟨w, hw⟩ := exists_moves_skipStars hc.advance hne
      exact ⟨_, (hfirst.trans hw).close hne⟩
    · rw [if_neg hslash] at h ⊢
      obtain ⟨w, hw⟩ := exists_moves_skipStars hc.advance h
      exact ⟨_, hfirst.trans hw⟩
  · rw [if_neg hstar] at h ⊢
    exact ⟨_, moves_advance hc h⟩

/-- The loop over a comment that ends never reads past the end of the text. -/
theorem BlockEnds.exists_moves {lx lx' : Lexer} (h : BlockEnds lx lx') (hc : lx.Clean) :
    ∃ w, Moves lx w lx' := by
  induction h with
  | stop h => exact exists_moves_blockRound hc (by rw [h]; decide)
  | @round lx lx' _ hrest ih =>
    have hne : lx.blockRound.last ≠ EOF := by
      intro heof
      have hend := (hrest.blockEnd_eq (blockRound_clean hc)).1
      rw [pending_of_eof heof] at hend
      cases hend
    obtain ⟨w, hw⟩ := exists_moves_blockRound hc hne
    obtain ⟨w', hw'⟩ := ih (blockRound_clean hc)
    exact ⟨_, hw.trans hw'⟩

theorem BlockEnds.last_eq {lx lx' : Lexer} (h : BlockEnds lx lx') : lx'.last = 0 := by
  induction h with
  | stop h => exact h
  | round _ _ ih => exact ih

/-- A body without NUL and `*/` is skipped to the `*/` behind it.  `star` stands for a `*`
before the body. -/
theorem blockEnd_append {star : Bool} {body : Bytes} (hzero : 0 ∉ body)
    (hnone : ¬str "*/" <:+: (if star then ch '*' :: body else body)) (rest : Bytes) :
    blockEnd star (body ++ ch '*' :: ch '/' :: rest) = some rest := by
  induction body generalizing star with
  | nil =>
    have hstar : ¬(ch '*' = 0 ∨ (star = true ∧ ch '*' = ch '/')) := by
      intro h
      rcases h with h | h
      · exact absurd h (by decide)
      · exact absurd h.2 (by decide)
    rw [List.nil_append, blockEnd, if_neg hstar, decide_eq_true rfl, blockEnd,
      if_pos (.inr ⟨rfl, rfl⟩)]
  | cons c body ih =>
    have hstop : ¬(c = 0 ∨ (star = true ∧ c = ch '/')) := by
      intro h
      rcases h with h | ⟨hstar, hslash⟩
      · exact hzero (h ▸ List.mem_cons_self)
      · rw [if_pos hstar, hslash] at hnone
        exact hnone ⟨[], body, rfl⟩
    have hsuffix : c :: body <:+: (if star then ch '*' :: c :: body else c :: body) := by
      split
      · exact (List.suffix_cons _ _).isInfix
      · exact List.infix_rfl
    rw [List.cons_append, blockEnd, if_neg hstop]
    refine ih (fun h => hzero (List.mem_cons_of_mem c h)) fun hinfix => hnone (.trans ?_ hsuffix)
    by_cases hstar : c = ch '*'
    · rwa [decide_eq_true hstar, if_pos rfl, ← hstar] at hinfix
    · rw [decide_eq_false hstar, if_neg Bool.false_ne_true] at hinfix
      exact hinfix.trans (List.suffix_cons c body).isInfix

/-- `read_comment` ends at the first `*/`: its lookahead is the character behind, and it has
moved over everything it read. -/
theorem exists_readComment {lx : Lexer} (hc : lx.Clean) {body rest : Bytes}
    (hp : lx.pending = ch '*' :: (body ++ ch '*' :: ch '/' :: rest)) (hzero : 0 ∉ body)
    (hnone : ¬str "*/" <:+: body) :
    ∃ fuel lx', lx.readComment fuel = some lx' ∧ lx'.pending = rest ∧ lx'.last = rest.headD EOF ∧
      lx'.position =
        (body ++ [ch '*', ch '/', rest.headD EOF]).foldl stepPosition lx.position := by
  have hlast := last_eq_of_pending hp
  have hend : blockEnd false lx.pending.tail = some rest := by
    rw [hp, List.tail_cons]
    exact blockEnd_append hzero (by simpa using hnone) rest
  obtain ⟨lx₁, hblock⟩ := exists_blockEnds hc hend
  obtain ⟨hend₁, hclean⟩ := hblock.blockEnd_eq hc
  obtain ⟨w, hw⟩ := hblock.exists_moves hc
  obtain ⟨fuel, hfuel⟩ := blockEnds_iff.mp hblock
  have hrest : lx₁.pending.tail = rest := Option.some.inj (hend₁.symm.trans hend)
  have hpending : lx₁.advance.pending = rest := by rw [pending_advance hclean, hrest]
  have hlast' : lx₁.advance.last = rest.headD EOF := by rw [last_eq, hpending]
  have hread : w = body ++ [ch '*', ch '/'] := by
    have htext := hw.text
    rw [hp, hrest, List.tail_cons] at htext
    exact List.append_cancel_right  (by rw [← htext, List.append_assoc]; rfl)
  refine ⟨fuel, lx₁.advance, (readComment_eq_some (by rw [hlast]; decide)).mpr ⟨lx₁, hfuel, rfl⟩,
    hpending, hlast', ?_⟩
  rw [advance_position (by rw [hblock.last_eq]; decide), hlast', hw.position, hread]
  simp only [List.foldl_append, List.foldl_cons, List.foldl_nil]

/-- A block comment is skipped to its first `*/`.  `read_comment` leaves the text behind it
pending and the position moved over every character it read, and the calls show the tokens of
that text.  The row and the column are those of the class while they are below 2^31. -/
theorem block_comment_skipped {lx : Lexer} {body rest : Bytes}
    (hbody : ∀ c ∈ body, 0 < c ∧ c < 128) (hrest : Ascii rest) (hnone : ¬str "*/" <:+: body)
    (h : StartsAt lx (ch '/' :: ch '*' :: (body ++ ch '*' :: ch '/' :: rest))) :
    (∃ fuel lx', lx.skipSpaces.advance.readComment fuel = some lx' ∧ lx'.pending = rest ∧
      lx'.last = rest.headD EOF ∧
      lx'.position = (ch '*' :: (body ++ [ch '*', ch '/', rest.headD EOF])).foldl stepPosition
        lx.skipSpaces.position) ∧
      SameTokens lx (fresh lx.width rest) := by
  have hzero : 0 ∉ body := fun hmem => absurd (hbody 0 hmem).1 (by decide)
  have hascii : Ascii body := fun c hc => (hbody c hc).2
  have hne : EOF ∉ ch '/' :: ch '*' :: (body ++ ch '*' :: ch '/' :: rest) := by
    have hslash : EOF ≠ ch '/' := by decide
    have hstar : EOF ≠ ch '*' := by decide
    simp [hslash, hstar, eof_not_mem hascii, eof_not_mem hrest]
  obtain ⟨hclean, hpending⟩ := h.pending hne
  constructor
  · have hp : lx.skipSpaces.advance.pending =
        ch '*' :: (body ++ ch '*' :: ch '/' :: rest) := by
      rw [pending_advance hclean, hpending, List.tail_cons]
    obtain ⟨fuel, lx', hread, hrest', hlast, hposition⟩ :=
      exists_readComment hclean.advance hp hzero hnone
    refine ⟨fuel, lx', hread, hrest', hlast, ?_⟩
    rw [hposition, advance_position (last_ne_eof_of_pending hpending), last_eq_of_pending hp]
    rfl
  · have hend : blockEnd false (body ++ ch '*' :: ch '/' :: rest) = some rest :=
      blockEnd_append hzero (by simpa using hnone) rest
    rw [h.sameTokens_fresh hne (eof_not_mem hrest)]
    refine tokens_congr ?_
    rw [tokenStart_block, hend, Option.bind_some]

theorem block_comment_skipped_stars :
    (∃ fuel lx', (start (str "/**\n **/x")).skipSpaces.advance.readComment fuel = some lx' ∧
      lx'.pending = str "x" ∧ lx'.last = ch 'x' ∧
      lx'.position = (ch '*' :: (str "*\n *" ++ [ch '*', ch '/', ch 'x'])).foldl stepPosition
        (start (str "/**\n **/x")).skipSpaces.position) ∧
      SameTokens (start (str "/**\n **/x")) (fresh 32 (str "x")) :=
  block_comment_skipped (by decide) (by decide) (by decide) (startsAt_start (str "/**\n **/x"))

end Lexer

end P4LS

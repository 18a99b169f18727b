import P4LS.Lexer.Munch

/-!
# Annotations

An `@` is a token of its own, unless a `p` follows it: then `read_other` takes it for the
beginning of `@pragma`, whatever the name is.
-/

namespace P4LS

open Bytes

namespace Lexer

/-! ## A word at a place of the text -/

theorem At.wordLoop {lx : Lexer} {c : UInt8} {s : Bytes} (h : At lx (c :: s)) :
    lx.wordLoop.text = lx.text ++ s.takeWhile isWordChar ∧
      At lx.wordLoop (s.dropWhile isWordChar) := by
  fun_induction Lexer.wordLoop lx generalizing c s with
  | case1 lx hword ih =>
    have hat := h.getLast
    have hlast := view_at.last hat
    cases s with
    | nil => exact absurd hlast (ne_eof_of_isWordChar hword)
    | cons d s =>
      have hd : lx.getLast.last = d := hlast
      obtain ⟨htext, hrest⟩ := ih (hat.congr rfl rfl)
      rw [hd] at hword
      rw [List.takeWhile_cons_of_pos hword, List.dropWhile_cons_of_pos hword]
      exact ⟨by rw [htext, hd, List.append_assoc, List.singleton_append], hrest⟩
  | case2 lx hword =>
    have hat := h.getLast
    cases s with
    | nil => exact ⟨(List.append_nil _).symm, hat⟩
    | cons d s =>
      have hd : lx.getLast.last = d := view_at.last hat
      rw [hd] at hword
      rw [List.takeWhile_cons_of_neg hword, List.dropWhile_cons_of_neg hword, List.append_nil]
      exact ⟨rfl, hat⟩

theorem At.readIdentifier {lx : Lexer} {c : UInt8} {s : Bytes} (h : At lx (c :: s)) :
    lx.readIdentifier.2.text = c :: s.takeWhile isWordChar ∧
      At lx.readIdentifier.2 (s.dropWhile isWordChar) := by
  have hlast : lx.last = c := h.1
  have hat : At { lx with text := [lx.last] } (c :: s) := h.congr rfl rfl
  obtain ⟨htext, hrest⟩ := hat.wordLoop
  refine ⟨?_, hrest.congr rfl rfl⟩
  show (Lexer.wordLoop { lx with text := [lx.last] }).text = _
  rw [htext, hlast]
  rfl

/-- A call at a word returns its token and its text, and leaves what follows it. -/
theorem exists_completes_word {lx : Lexer} {name rest : Bytes} (h : At lx (name ++ rest))
    (hname : isWord name = true) (hrest : rest.head?.any isWordChar = false) :
    ∃ o, Completes lx o ∧ o.1 = .ok (wordToken name) ∧ o.2.text = name ∧ At o.2 rest := by
  cases name with
  | nil => cases hname
  | cons c w =>
    simp only [isWord, Bool.and_eq_true, List.all_eq_true] at hname
    obtain ⟨hstart, hword⟩ := hname
    have hspace : ¬isspace c = true := by
      rw [isspace_of_isWordStart hstart]
      exact Bool.false_ne_true
    have hat : At lx.skipSpaces (c :: (w ++ rest)) := by
      have hskip := view_at.skipSpaces h
      rwa [List.cons_append, List.dropWhile_cons_of_neg hspace] at hskip
    obtain ⟨htake, hdrop⟩ := span_append hword hrest
    obtain ⟨htext, hleft⟩ := hat.readIdentifier
    rw [htake] at htext
    rw [hdrop] at hleft
    have hlast : lx.skipSpaces.last = c := hat.1
    have htoken : lx.skipSpaces.readIdentifier.1 =
        wordToken lx.skipSpaces.readIdentifier.2.text := rfl
    refine ⟨_, completes_of_scan (.word (by rw [hlast]; exact hstart)), ?_, htext, hleft⟩
    rw [htoken, htext]

/-! ## The sign of an annotation -/

/-- The next two calls return the sign of an annotation and its name, and the lexer goes on with
what follows it. -/
def AnnotationLexed (lx : Lexer) (name rest : Bytes) : Prop :=
  ∃ o₁ o₂, Completes lx o₁ ∧ o₁.1 = .ok .tAt ∧ Completes o₁.2 o₂ ∧
    o₂.1 = .ok (wordToken name) ∧ o₂.2.text = name ∧ At o₂.2 rest

/-- What the call at an `@` returns is decided by the character behind it, and nothing of the
name is consumed. -/
theorem munch_at (s : Bytes) :
    munch (ch '@') s = (if s.head? = some (ch 'p') then .tEndPragma else .tAt, s) := by
  have hunfold : munch (ch '@') s =
      if s.head? = some (ch 'p') then (.tEndPragma, s) else (.tAt, s) := rfl
  rw [hunfold]
  split <;> rfl

/-- An annotation is lexed as one if and only if its name does not begin with `p`. -/
theorem annotationLexed_iff {lx : Lexer} {name rest : Bytes}
    (h : StartsAt lx (ch '@' :: (name ++ rest))) (hname : isWord name = true)
    (hrest : rest.head?.any isWordChar = false) :
    AnnotationLexed lx name rest ↔ name.head? ≠ some (ch 'p') := by
  obtain ⟨o₁, ho₁, hkind, hat⟩ := exists_completes_operator h (by decide) fun hslash =>
    absurd hslash.1 (by decide)
  rw [munch_at] at hkind hat
  have hhead : (name ++ rest).head? = name.head? := by
    cases name with
    | nil => cases hname
    | cons c w => rfl
  rw [hhead] at hkind
  constructor
  · intro hlexes hp
    obtain ⟨o, _, ho, hsign, _⟩ := hlexes
    rw [ho.unique ho₁, hkind, if_pos hp] at hsign
    exact Token.noConfusion (Except.ok.inj hsign)
  · intro hp
    rw [if_neg hp] at hkind
    obtain ⟨o₂, ho₂, htoken, htext, hleft⟩ := exists_completes_word hat hname hrest
    exact ⟨o₁, o₂, ho₁, hkind, ho₂, htoken, htext, hleft⟩

theorem annotationLexed_iff_name :
    AnnotationLexed (start (str "@name(1)")) (str "name") (str "(1)") ↔
      (str "name").head? ≠ some (ch 'p') := by
  have hstarts : StartsAt (start (str "@name(1)")) (ch '@' :: (str "name" ++ str "(1)")) :=
    startsAt_start (str "@name(1)")
  exact annotationLexed_iff hstarts (by decide) rfl

/-- The annotation `@priority` is taken for the end of a pragma. -/
theorem not_annotationLexed_priority :
    StartsAt (start (str "@priority(1)")) (ch '@' :: (str "priority" ++ str "(1)")) ∧
      ¬AnnotationLexed (start (str "@priority(1)")) (str "priority") (str "(1)") := by
  have hstarts : StartsAt (start (str "@priority(1)"))
      (ch '@' :: (str "priority" ++ str "(1)")) := startsAt_start (str "@priority(1)")
  refine ⟨hstarts, fun hlexes => ?_⟩
  obtain ⟨o₁, ho₁, hkind, _⟩ := exists_completes_operator hstarts (by decide) fun hslash =>
    absurd hslash.1 (by decide)
  obtain ⟨o, _, ho, hsign, _⟩ := hlexes
  rw [ho.unique ho₁, hkind] at hsign
  exact Token.noConfusion (Except.ok.inj hsign)

end Lexer

end P4LS

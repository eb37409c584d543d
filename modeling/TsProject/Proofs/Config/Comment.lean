/-
  TsProject.Proofs.Config.Comment — a comment in front of a config.

  Blanks, byte order marks and comments are passed over before a value is read, so what
  comes behind them is read the same. But a text of blanks alone is the empty config
  without being read, and such a text behind a comment is refused: it holds no value.

  - `run_blanks_comment`: a comment is passed over.
  - `opens_value`: no value starts with a blank.
  - `parseText_comment`: behind a comment a config is what it is, unless it is blanks alone.
  - `parseText_onlyComment`: a file that holds a comment and nothing else is refused.
-/

import TsProject.Config.File
import TsProject.Proofs.Json5.Reader

namespace TsProject.Json5

open CodePoint Reader

/-! ## Comments -/

/-- A comment: to the end of its line, which ends with a line feed, or closed. -/
inductive IsComment : Text → Prop
  | line {body : Text} : (∀ c ∈ body, isLineBreak c = false) → IsComment (slash :: slash :: body ++ [lineFeed])
  | block {body : Text} : ¬ [asterisk, slash] <:+: body → IsComment (slash :: asterisk :: body ++ [asterisk, slash])

variable {s t : Text}

theorem run_lineEnd_of_not {c : CodePoint} (h : isLineBreak c = false) (t : Text) : run lineEnd (c :: t) = none := by
  simp only [isLineBreak, Bool.or_eq_false_iff, beq_eq_false_iff_ne] at h
  obtain ⟨⟨⟨hfeed, hreturn⟩, hline⟩, hparagraph⟩ := h
  simp only [lineEnd, run_firstOf_cons, run_firstOf_nil, run_literal_cons, hfeed, hreturn, hline, hparagraph, if_false,
    Option.or_none]

theorem run_closing {body : Text} (h : ¬ [asterisk, slash] <:+: body) (hne : body ≠ []) (t : Text) :
    run (literal [asterisk, slash]) (body ++ asterisk :: slash :: t) = none := by
  obtain ⟨c, body, rfl⟩ := List.exists_cons_of_ne_nil hne
  rw [List.cons_append, run_literal_cons]
  split
  · rename_i hc
    cases body with
    | nil => rfl
    | cons d body =>
      rw [List.cons_append, run_literal_cons]
      split
      · rename_i hd
        exact absurd ⟨[], body, by rw [hc, hd]; rfl⟩ h
      · rfl
  · rfl

theorem run_comment_line {body : Text} (h : ∀ c ∈ body, isLineBreak c = false) (t : Text) :
    run comment (slash :: slash :: (body ++ lineFeed :: t)) = some ((), lineFeed :: t) := by
  have hbody : run (many (anyBut lineEnd)) (body ++ lineFeed :: t) = some (body, lineFeed :: t) := by
    refine run_many_anyBut rfl ?_
    intro v hv hsuffix
    obtain ⟨c, v, rfl⟩ := List.exists_cons_of_ne_nil hv
    exact run_lineEnd_of_not (h c (hsuffix.subset List.mem_cons_self)) _
  rw [comment, run_firstOf_cons, run_bind, run_literal_cons, if_pos rfl, run_literal_cons, if_pos rfl, run_literal_nil,
    Option.bind_some, run_many_bind, hbody]
  rfl

theorem run_comment_block {body : Text} (h : ¬ [asterisk, slash] <:+: body) (t : Text) :
    run comment (slash :: asterisk :: (body ++ asterisk :: slash :: t)) = some ((), t) := by
  have hbody : run (many (anyBut (literal [asterisk, slash]))) (body ++ asterisk :: slash :: t) =
      some (body, asterisk :: slash :: t) := by
    refine run_many_anyBut rfl ?_
    intro v hv hsuffix
    exact run_closing (fun hin => h (hin.trans hsuffix.isInfix)) hv t
  have hline : run (literal [slash, slash]) (slash :: asterisk :: (body ++ asterisk :: slash :: t)) = none := rfl
  rw [comment, run_firstOf_cons, run_bind, hline, Option.bind_none, Option.none_or, run_firstOf_cons, run_bind,
    run_literal_cons, if_pos rfl, run_literal_cons, if_pos rfl, run_literal_nil, Option.bind_some, run_many_bind, hbody]
  rfl

/-! ## Blanks -/

theorem run_blanks_eq (s : Text) : run blanks s = (run (many blank) s).bind fun r => some ((), r.2) :=
  run_many_bind blank (fun _ => pure ()) s

theorem run_blanks_of_blank (h : run blank s = some ((), t)) (hlength : t.length < s.length) : run blanks s = run blanks t := by
  rw [run_blanks_eq, run_blanks_eq, run_many, h]
  simp only [if_pos hlength]
  cases run (many blank) t with
  | none => rfl
  | some r => rfl

theorem run_blank_slash (t : Text) {r : Unit × Text} (h : run comment (slash :: t) = some r) : run blank (slash :: t) = some r := by
  have hspace : run (literal [space]) (slash :: t) = none := rfl
  have hend : run lineEnd (slash :: t) = none := rfl
  rw [blank, run_firstOf_cons, hspace, Option.none_or, run_firstOf_cons, hend, Option.none_or, run_firstOf_cons, h]
  rfl

theorem run_blanks_comment {c : Text} (h : IsComment c) (t : Text) : run blanks (c ++ t) = run blanks t := by
  cases h with
  | @line body hbody =>
    have hfirst := run_blanks_of_blank (run_blank_slash _ (run_comment_line hbody t)) (by simp; omega)
    have hsecond : run blanks (lineFeed :: t) = run blanks t := run_blanks_of_blank rfl (Nat.lt_succ_self _)
    have hsplit : slash :: slash :: body ++ [lineFeed] ++ t = slash :: slash :: (body ++ lineFeed :: t) := by simp
    rw [hsplit, hfirst, hsecond]
  | @block body hbody =>
    have hfirst := run_blanks_of_blank (run_blank_slash _ (run_comment_block hbody t)) (by simp; omega)
    have hsplit : slash :: asterisk :: body ++ [asterisk, slash] ++ t = slash :: asterisk :: (body ++ asterisk :: slash :: t) := by
      simp
    rw [hsplit, hfirst]

theorem run_blanks_trimStart (t : Text) : run blanks (Text.trimStart (· == byteOrderMark) t) = run blanks t := by
  induction t with
  | nil => rfl
  | cons c t ih =>
    rw [Text.trimStart, List.dropWhile_cons]
    split
    · rename_i hc
      obtain rfl := beq_iff_eq.mp hc
      have hmark : run blanks (byteOrderMark :: t) = run blanks t := run_blanks_of_blank rfl (Nat.lt_succ_self _)
      rw [hmark]
      exact ih
    · rfl

theorem shortens_blanks : Shortens blanks := by
  have hanyBut : ∀ stop, Shortens (anyBut stop) := fun stop => (Shortens.notAhead stop).bind fun _ => .satisfy _
  have hlineEnd : Shortens lineEnd :=
    .or (.literal _) (.or (.literal _) (.or (.literal _) (.or (.literal _) (.or (.literal _) .nothing))))
  have hline : Shortens (do literal [slash, slash]; let _ ← many (anyBut lineEnd)) :=
    (Shortens.literal _).bind fun _ => (Shortens.many (hanyBut _)).bind fun _ => .pure ()
  have hblock : Shortens (do
      literal [slash, asterisk]
      let _ ← many (anyBut (literal [asterisk, slash]))
      literal [asterisk, slash]) :=
    (Shortens.literal _).bind fun _ => (Shortens.many (hanyBut _)).bind fun _ => .literal _
  have hcomment : Shortens comment := .or hline (.or hblock .nothing)
  have hspace : Shortens (do let _ ← satisfy Text.isSpaceSeparator) := (Shortens.satisfy _).bind fun _ => .pure ()
  have hblank : Shortens blank :=
    .or (.literal _) (.or hlineEnd (.or hcomment (.or (.literal _) (.or (.literal _) (.or (.literal _) (.or (.literal _)
      (.or (.literal _) (.or hspace .nothing))))))))
  exact (Shortens.many hblank).bind fun _ => .pure ()

/-! ## Values -/

/-- Anything but a blank. -/
def isInk (c : CodePoint) : Bool := !Text.isBlank c

theorem opens_integerPart : Opens isInk integerPart := by
  have hdigit : ∀ c < 0x3A, isBetween 0x31 0x39 c = true → isInk c = true := by decide
  have hpositive : Opens isInk (satisfy (isBetween 0x31 0x39)) := by
    apply Opens.satisfy
    intro c hc
    have hlast : c ≤ 0x39 := by
      simp only [isBetween, Bool.and_eq_true, decide_eq_true_eq] at hc
      exact hc.2
    exact hdigit c (Nat.lt_succ_of_le hlast) hc
  exact .or ((Opens.char rfl).bind _) (.or (hpositive.bind _) .nothing)

theorem opens_unsigned (negative : Bool) : Opens isInk (unsigned negative) := by
  have hfraction : Opens isInk fraction := (Opens.char rfl).bind _
  have hdecimal : Opens isInk decimal :=
    .or (opens_integerPart.bind _) (.or (opens_integerPart.bind _) (.or (opens_integerPart.bind _) (.or opens_integerPart
      (.or (hfraction.bind _) (.or hfraction .nothing)))))
  have hhexadecimal : Opens isInk (firstOf [literal (Text.of "0x"), literal (Text.of "0X")]) :=
    .or (.literal rfl) (.or (.literal rfl) .nothing)
  exact .or (hdecimal.bind _) (.or (hhexadecimal.bind _) (.or ((Opens.literal rfl).bind _) (.or ((Opens.literal rfl).bind _)
    .nothing)))

theorem opens_bracketed {α : Type} {opening : CodePoint} (h : isInk opening = true) (closing : CodePoint) (item : Reader α) :
    Opens isInk (bracketed opening closing item) :=
  .or ((Opens.char h).bind _) (.or ((Opens.char h).bind _) .nothing)

/-- No value starts with a blank. -/
theorem opens_value : Opens isInk value := by
  have hstring : Opens isInk string := .or ((Opens.char rfl).bind _) (.or ((Opens.char rfl).bind _) .nothing)
  have hnumber : Opens isInk number :=
    .or ((Opens.char rfl).bind _) (.or ((Opens.char rfl).bind _) (.or (opens_unsigned false) .nothing))
  have hover : ∀ inner, Opens isInk (valueOver inner) := fun inner =>
    .or ((Opens.literal rfl).bind _) (.or ((Opens.literal rfl).bind _) (.or ((Opens.literal rfl).bind _)
      (.or ((opens_bracketed rfl _ _).map _) (.or ((opens_bracketed rfl _ _).map _) (.or (hstring.map _)
        (.or (hnumber.map _) .nothing))))))
  intro s r hr
  change (value s).result = some r at hr
  rw [value] at hr
  exact hover _ s r hr

/-! ## Texts -/

/-- What is read behind the blanks at the start. -/
def content : Reader Term := do
  let v ← value
  blanks
  atEnd
  return v

theorem run_document_eq (s : Text) : run document s = (run blanks s).bind fun r => run content r.2 := run_bind blanks _ s

theorem run_document_congr (h : run blanks s = run blanks t) : run document s = run document t := by
  rw [run_document_eq, run_document_eq, h]

/-- A text of blanks alone holds no value. -/
theorem run_document_of_blank (h : s.all Text.isBlank = true) : run document s = none := by
  have hcontent : Opens isInk content := opens_value.bind _
  rw [run_document_eq, Option.eq_none_iff_forall_ne_some]
  intro x hx
  obtain ⟨r, hblanks, hx⟩ := Option.bind_eq_some_iff.mp hx
  have hsuffix : r.2 <:+ s := shortens_blanks s r hblanks
  obtain ⟨c, t, ht, hc⟩ := hcontent r.2 x hx
  have hblank : Text.isBlank c = true := List.all_eq_true.mp h c (hsuffix.subset (ht ▸ List.mem_cons_self))
  rw [isInk, hblank] at hc
  cases hc

theorem toOption_parse (s : Text) : (parse s).toOption = (run document s).bind fun r => r.1.value.toOption := by
  unfold parse run
  rcases document s with ⟨_ | r, far⟩ <;> rfl

end TsProject.Json5

namespace TsProject.Config

open CodePoint Json5 Reader

/-! ## Configs -/

/-- A text that stands for the empty config: byte order marks, and then blanks alone. -/
def IsBlankText (t : Text) : Prop := (Text.trimStart (· == byteOrderMark) t).all Text.isBlank = true

instance (t : Text) : Decidable (IsBlankText t) := inferInstanceAs (Decidable (_ = true))

theorem parseText_of_blank (fileName : Text) {t : Text} (h : IsBlankText t) : parseText fileName t = .ok [] := by
  unfold parseText
  exact if_pos h

/-- The fields of an object. -/
def fields? : Value → Option Fields
  | .object fields => some fields
  | _ => none

/-- Any other config is an object that is read. -/
theorem toOption_parseText (fileName : Text) {t : Text} (h : ¬ IsBlankText t) :
    (parseText fileName t).toOption = ((run document t).bind fun r => r.1.value.toOption).bind fields? := by
  have hdocument : run document (Text.trimStart (· == byteOrderMark) t) = run document t :=
    run_document_congr (run_blanks_trimStart t)
  rw [← hdocument, ← toOption_parse, parseText, if_neg (show ¬ List.all _ _ = true from h)]
  cases Json5.parse (Text.trimStart (· == byteOrderMark) t) with
  | error e => rfl
  | ok v => cases v <;> rfl

theorem not_isBlankText_comment {c : Text} (h : IsComment c) (t : Text) : ¬ IsBlankText (c ++ t) := by
  cases h <;> exact Bool.false_ne_true

/-- Behind a comment a config is read as it is without it, and is refused where it is refused without it. Only a text that
stands for the empty config is refused behind every comment. -/
theorem parseText_comment (fileName : Text) {c : Text} (hc : IsComment c) (t : Text) :
    (¬ IsBlankText t → (parseText fileName (c ++ t)).toOption = (parseText fileName t).toOption) ∧
      (IsBlankText t → parseText fileName t = .ok [] ∧ (parseText fileName (c ++ t)).toOption = none) := by
  have hdocument : run document (c ++ t) = run document t := run_document_congr (run_blanks_comment hc t)
  have hbehind := toOption_parseText fileName (not_isBlankText_comment hc t)
  rw [hdocument] at hbehind
  constructor
  · intro ht
    rw [hbehind, toOption_parseText fileName ht]
  · intro ht
    have hnone : run document t = none := by
      rw [← run_document_congr (run_blanks_trimStart t)]
      exact run_document_of_blank ht
    refine ⟨parseText_of_blank fileName ht, ?_⟩
    rw [hbehind, hnone]
    rfl

/-- A comment that looks like the end of another one, then an object. -/
theorem parseText_comment_closed :
    let c := Text.of "/*/ // **/"
    let t := Text.of "\uFEFF \x7b\"a\": 1\x7d"
    IsComment c ∧ ¬ IsBlankText t ∧
      (parseText (Text.of "a.json") (c ++ t)).toOption = (parseText (Text.of "a.json") t).toOption ∧
      IsBlankText [space] ∧ (parseText (Text.of "a.json") (c ++ [space])).toOption = none := by
  intro c t
  have hc : IsComment c := .block (show ¬ [asterisk, slash] <:+: Text.of "/ // *" by decide)
  have ht : ¬ IsBlankText t := by decide
  have hblank : IsBlankText [space] := by decide
  exact ⟨hc, ht, (parseText_comment _ hc t).1 ht, hblank, ((parseText_comment _ hc [space]).2 hblank).2⟩

/-- A comment alone is refused, and nothing at all is the empty config. -/
theorem parseText_onlyComment :
    IsComment (Text.of "// a\n") ∧ parseText (Text.of "a.json") [] = .ok [] ∧
      (parseText (Text.of "a.json") (Text.of "// a\n" ++ [])).toOption = none := by
  refine ⟨.line (show ∀ c ∈ Text.of " a", isLineBreak c = false by decide), rfl, ?_⟩
  exact Option.isNone_iff_eq_none.mp (by decide +kernel)

end TsProject.Config

-- SUMMARY: What may stand between the tokens of a document, and where tokens end.
import NetworkEtc.Json.Strings

/-!
# Tokens

Blanks are passed over in front of every token, and comments where the reader looks for them.
-/

namespace Json

open Library.Printf Library.Decimal

variable {c : UInt8} {current rest body g : List UInt8} {comments : Bool} {features : Features}

-- ---------------------------------------------------------------------------
-- Gaps
-- ---------------------------------------------------------------------------

def Blank (g : List UInt8) : Prop := ∀ c ∈ g, isSpace c = true

/-- Blanks, and comments where there may be some. -/
inductive Gap (comments : Bool) : List UInt8 → Prop where
  | nil : Gap comments []
  | space {c : UInt8} {g : List UInt8} (hc : isSpace c = true) (h : Gap comments g) :
    Gap comments (c :: g)
  | cStyle {body g : List UInt8} (hcomments : comments = true)
    (hbody : ¬ [ascii '*', ascii '/'] <:+: body) (h : Gap comments g) :
    Gap comments (ascii '/' :: ascii '*' :: body ++ ascii '*' :: ascii '/' :: g)
  | cppStyle {c : UInt8} {body g : List UInt8} (hcomments : comments = true)
    (hbody : ∀ d ∈ body, d ≠ ascii '\n' ∧ d ≠ ascii '\r') (hc : c = ascii '\n' ∨ c = ascii '\r')
    (h : Gap comments g) : Gap comments (ascii '/' :: ascii '/' :: body ++ c :: g)

theorem gap_of_blank (h : Blank g) : Gap comments g := by
  induction g with
  | nil => exact .nil
  | cons c g ih =>
    obtain ⟨hc, hg⟩ := List.forall_mem_cons.mp h
    exact .space hc (ih hg)

theorem Gap.blank (h : Gap false g) : Blank g := by
  induction h with
  | nil => nofun
  | space hc _ ih => exact List.forall_mem_cons.mpr ⟨hc, ih⟩
  | cStyle hcomments => cases hcomments
  | cppStyle hcomments => cases hcomments

theorem readToken_space (hc : isSpace c = true) (current : List UInt8) :
    readToken (c :: current) = readToken current := by
  unfold readToken skipSpaces
  rw [List.dropWhile_cons_of_pos hc]

theorem readToken_blank (h : Blank g) (current : List UInt8) :
    readToken (g ++ current) = readToken current := by
  induction g with
  | nil => rfl
  | cons c g ih =>
    obtain ⟨hc, hg⟩ := List.forall_mem_cons.mp h
    exact (readToken_space hc _).trans (ih hg)

theorem readToken_cons (hc : isSpace c = false) (current : List UInt8) :
    readToken (c :: current) =
      ⟨(readTokenAt c current).1, c :: current, (readTokenAt c current).2⟩ := by
  unfold readToken skipSpaces
  rw [List.dropWhile_cons_of_neg (by rw [hc]; exact Bool.false_ne_true)]
  rfl

theorem readCStyleComment_body (hbody : ¬ [ascii '*', ascii '/'] <:+: body)
    (current : List UInt8) :
    readCStyleComment (body ++ ascii '*' :: ascii '/' :: current) = (true, current) := by
  induction body with
  | nil => rfl
  | cons b body ih =>
    have hrest : ¬ [ascii '*', ascii '/'] <:+: body :=
      fun h => hbody (h.trans (List.suffix_cons b body).isInfix)
    rw [List.cons_append, readCStyleComment, if_neg, ih hrest]
    rintro ⟨rfl, hhead⟩
    cases body with
    | nil => exact absurd hhead (by decide : ascii '*' ≠ ascii '/')
    | cons d body =>
      obtain rfl : d = ascii '/' := hhead
      exact hbody ⟨[], body, rfl⟩

theorem readCppStyleComment_body (hbody : ∀ d ∈ body, d ≠ ascii '\n' ∧ d ≠ ascii '\r')
    (hc : c = ascii '\n' ∨ c = ascii '\r') (current : List UInt8) :
    readCppStyleComment (body ++ c :: current) = current ∨
      current = ascii '\n' :: readCppStyleComment (body ++ c :: current) := by
  induction body with
  | nil =>
    rw [List.nil_append, readCppStyleComment]
    rcases hc with rfl | rfl
    · exact Or.inl rfl
    · rw [if_neg (by decide), if_pos rfl]
      split
      · next hhead =>
        cases current with
        | nil => exact absurd hhead (by decide)
        | cons d current =>
          obtain rfl : d = ascii '\n' := hhead
          exact Or.inr rfl
      · exact Or.inl rfl
  | cons b body ih =>
    obtain ⟨hb, hbody⟩ := List.forall_mem_cons.mp hbody
    rw [List.cons_append, readCppStyleComment, if_neg hb.1, if_neg hb.2]
    exact ih hbody

theorem readToken_cStyle (hbody : ¬ [ascii '*', ascii '/'] <:+: body) (current : List UInt8) :
    ∃ start, readToken (ascii '/' :: ascii '*' :: body ++ ascii '*' :: ascii '/' :: current) =
      ⟨.comment, start, current⟩ := by
  have hread : readTokenAt (ascii '/') (ascii '*' :: body ++ ascii '*' :: ascii '/' :: current) =
      orError .comment (readCStyleComment (body ++ ascii '*' :: ascii '/' :: current)) := rfl
  rw [readCStyleComment_body hbody] at hread
  rw [List.cons_append, readToken_cons rfl, hread]
  exact ⟨_, rfl⟩

theorem readToken_cppStyle (current : List UInt8) : ∃ start,
    readToken (ascii '/' :: ascii '/' :: current) =
      ⟨.comment, start, readCppStyleComment current⟩ :=
  ⟨_, rfl⟩

theorem skipComments_space (hc : isSpace c = true) (n : Nat) (current : List UInt8) :
    skipComments n (c :: current) = skipComments n current := by
  cases n with
  | zero => exact readToken_space hc current
  | succ n =>
    unfold skipComments
    rw [readToken_space hc]

theorem skipComments_comment {token : Token} (h : readToken current = token)
    (hcomment : token.type = .comment) (n : Nat) :
    skipComments (n + 1) current = skipComments n token.stop := by
  rw [skipComments, h]
  exact if_pos hcomment

theorem skipComments_gap (h : Gap comments g) (hnext : (readToken current).type ≠ .comment) {n : Nat}
    (hn : g.length ≤ n) : skipComments n (g ++ current) = readToken current := by
  induction h generalizing n with
  | nil =>
    cases n with
    | zero => rfl
    | succ n => exact if_neg hnext
  | space hc _ ih =>
    exact (skipComments_space hc n _).trans (ih (Nat.le_of_succ_le hn))
  | @cStyle body g _ hbody _ ih =>
    obtain ⟨n, rfl⟩ : ∃ m, n = m + 1 := ⟨n - 1, by simp at hn; omega⟩
    obtain ⟨start, htoken⟩ := readToken_cStyle hbody (g ++ current)
    rw [List.append_assoc]
    exact (skipComments_comment htoken rfl n).trans (ih (by simp at hn; omega))
  | @cppStyle c body g _ hbody hc _ ih =>
    obtain ⟨n, rfl⟩ : ∃ m, n = m + 1 := ⟨n - 1, by simp at hn; omega⟩
    obtain ⟨start, htoken⟩ := readToken_cppStyle (body ++ c :: (g ++ current))
    have hskip := ih (n := n) (by simp at hn; omega)
    rw [List.append_assoc]
    refine (skipComments_comment htoken rfl n).trans ?_
    rcases readCppStyleComment_body hbody hc (g ++ current) with heq | heq
    · exact (congrArg (skipComments n) heq).trans hskip
    · rw [← hskip, ← skipComments_space (c := ascii '\n') rfl]
      exact congrArg (skipComments n) heq.symm

theorem readTokenPastComments_gap (h : Gap comments g)
    (hnext : (readToken current).type ≠ .comment) :
    readTokenPastComments (g ++ current) = readToken current := by
  refine skipComments_gap h hnext ?_
  rw [List.length_append]
  exact Nat.le_add_right _ _

theorem skipCommentTokens_gap (h : Gap features.allowComments g)
    (hnext : (readToken current).type ≠ .comment) :
    skipCommentTokens features (g ++ current) = readToken current := by
  unfold skipCommentTokens
  split
  · exact readTokenPastComments_gap h hnext
  · next hnot =>
    rw [Bool.not_eq_true _ |>.mp hnot] at h
    exact readToken_blank h.blank current

-- ---------------------------------------------------------------------------
-- Numbers
-- ---------------------------------------------------------------------------

def Digits (ds : List UInt8) : Prop := ∀ d ∈ ds, isDigit d = true

/-- What the reader takes for a number: a digit or a sign, and what digits, fraction and exponent
there are. -/
inductive NumberText : List UInt8 → Prop where
  | mk {c : UInt8} {ds frac exponent : List UInt8} (hc : isDigit c = true ∨ c = ascii '-')
    (hds : Digits ds) (hfrac : frac = [] ∨ ∃ ds, Digits ds ∧ frac = ascii '.' :: ds)
    (hexponent : exponent = [] ∨ ∃ e sign ds, (e = ascii 'e' ∨ e = ascii 'E') ∧
      (sign = [] ∨ sign = [ascii '+'] ∨ sign = [ascii '-']) ∧ Digits ds ∧
      exponent = e :: sign ++ ds) :
    NumberText (c :: ds ++ frac ++ exponent)

/-- What may stand in a number behind its first character. -/
def isNumberChar (c : UInt8) : Bool :=
  isDigit c || c = ascii '.' || c = ascii 'e' || c = ascii 'E' || c = ascii '+' || c = ascii '-'

/-- No number goes on here. -/
def Ends (current : List UInt8) : Prop := isNumberChar (current.headD 0) = false

theorem Gap.ends (h : Gap comments g) (hends : Ends current) : Ends (g ++ current) := by
  cases h with
  | nil => exact hends
  | @space c g hc =>
    simp only [isSpace, Bool.or_eq_true, decide_eq_true_eq, or_assoc] at hc
    rcases hc with rfl | rfl | rfl | rfl <;> rfl
  | cStyle => rfl
  | cppStyle => rfl

theorem dropWhile_digits {ds : List UInt8} (hds : Digits ds)
    (hcurrent : isDigit (current.headD 0) = false) :
    (ds ++ current).dropWhile isDigit = current := by
  rw [List.dropWhile_append_of_pos hds]
  cases current with
  | nil => rfl
  | cons c current => exact List.dropWhile_cons_of_neg (by simpa using hcurrent)

theorem Ends.not_digit (h : Ends current) : isDigit (current.headD 0) = false := by
  unfold Ends isNumberChar at h
  simp only [Bool.or_eq_false_iff] at h
  exact h.1.1.1.1.1

theorem Ends.ne (h : Ends current) (hc : isNumberChar c = true) : current.headD 0 ≠ c := by
  rintro rfl
  rw [h] at hc
  cases hc

theorem digits_ne {ds : List UInt8} (hds : Digits ds) (hends : Ends rest) (hc : isDigit c = false)
    (hnumber : isNumberChar c = true) : (ds ++ rest).headD 0 ≠ c := by
  cases ds with
  | nil => exact hends.ne hnumber
  | cons d ds =>
    rintro rfl
    have hd := hds d List.mem_cons_self
    rw [List.cons_append, List.headD_cons] at hc
    rw [hc] at hd
    cases hd

theorem readNumber_text {ds frac exponent : List UInt8} (hds : Digits ds)
    (hfrac : frac = [] ∨ ∃ ds, Digits ds ∧ frac = ascii '.' :: ds)
    (hexponent : exponent = [] ∨ ∃ e sign ds, (e = ascii 'e' ∨ e = ascii 'E') ∧
      (sign = [] ∨ sign = [ascii '+'] ∨ sign = [ascii '-']) ∧ Digits ds ∧
      exponent = e :: sign ++ ds) (hends : Ends rest) :
    readNumber (ds ++ (frac ++ (exponent ++ rest))) = rest := by
  have hexp : isDigit ((exponent ++ rest).headD 0) = false ∧
      (exponent ++ rest).headD 0 ≠ ascii '.' := by
    rcases hexponent with rfl | ⟨e, sign, ds, he, -, -, rfl⟩
    · exact ⟨hends.not_digit, hends.ne rfl⟩
    · rcases he with rfl | rfl
      · exact ⟨rfl, by rw [List.cons_append, List.cons_append, List.headD_cons]; decide⟩
      · exact ⟨rfl, by rw [List.cons_append, List.cons_append, List.headD_cons]; decide⟩
  have hpoint : (if (frac ++ (exponent ++ rest)).headD 0 = ascii '.' then
      (frac ++ (exponent ++ rest)).tail.dropWhile isDigit else frac ++ (exponent ++ rest)) =
      exponent ++ rest := by
    rcases hfrac with rfl | ⟨ds, hds, rfl⟩
    · exact if_neg hexp.2
    · exact (if_pos rfl).trans (dropWhile_digits hds hexp.1)
  have hhead : isDigit ((frac ++ (exponent ++ rest)).headD 0) = false := by
    rcases hfrac with rfl | ⟨ds, -, rfl⟩
    · exact hexp.1
    · rfl
  unfold readNumber
  rw [dropWhile_digits hds hhead]
  dsimp only
  rw [hpoint]
  rcases hexponent with rfl | ⟨e, sign, ds, he, hsign, hds, rfl⟩
  · refine if_neg (not_or.mpr ⟨?_, ?_⟩)
    · exact hends.ne rfl
    · exact hends.ne rfl
  · have he' : (e :: sign ++ ds ++ rest).headD 0 = ascii 'e' ∨
        (e :: sign ++ ds ++ rest).headD 0 = ascii 'E' := he
    have htail : (e :: sign ++ ds ++ rest).tail = sign ++ (ds ++ rest) := List.append_assoc _ _ _
    rw [if_pos he', htail]
    rcases hsign with rfl | rfl | rfl
    · rw [List.nil_append, if_neg]
      · exact dropWhile_digits hds hends.not_digit
      · exact not_or.mpr ⟨digits_ne hds hends rfl rfl, digits_ne hds hends rfl rfl⟩
    · refine (congrArg (List.dropWhile isDigit) (if_pos (Or.inl rfl))).trans ?_
      exact dropWhile_digits hds hends.not_digit
    · refine (congrArg (List.dropWhile isDigit) (if_pos (Or.inr rfl))).trans ?_
      exact dropWhile_digits hds hends.not_digit

theorem number_ne {d : UInt8} (hc : isDigit c = true ∨ c = ascii '-') (hd : isDigit d = false)
    (hminus : d ≠ ascii '-') : c ≠ d := by
  rintro rfl
  rw [hd] at hc
  exact hc.elim nofun hminus

theorem number_not_space (hc : isDigit c = true ∨ c = ascii '-') : isSpace c = false := by
  unfold isSpace
  simp only [Bool.or_eq_false_iff, decide_eq_false_iff_not]
  exact ⟨⟨⟨number_ne hc rfl (by decide), number_ne hc rfl (by decide)⟩,
    number_ne hc rfl (by decide)⟩, number_ne hc rfl (by decide)⟩

theorem readTokenAt_number (hc : isDigit c = true ∨ c = ascii '-') (current : List UInt8) :
    readTokenAt c current = (.number, readNumber current) := by
  unfold readTokenAt
  rw [if_neg (number_ne hc rfl (by decide)), if_neg (number_ne hc rfl (by decide)),
    if_neg (number_ne hc rfl (by decide)), if_neg (number_ne hc rfl (by decide)),
    if_neg (number_ne hc rfl (by decide)), if_neg (number_ne hc rfl (by decide)), if_pos hc]

theorem readToken_number {t : List UInt8} (h : NumberText t) (hends : Ends rest) :
    readToken (t ++ rest) = ⟨.number, t ++ rest, rest⟩ := by
  cases h with
  | @mk c ds frac exponent hc hds hfrac hexponent =>
    have happend : c :: ds ++ frac ++ exponent ++ rest =
        c :: (ds ++ (frac ++ (exponent ++ rest))) := by
      simp only [List.cons_append, List.append_assoc]
    rw [happend, readToken_cons (number_not_space hc), readTokenAt_number hc,
      readNumber_text hds hfrac hexponent hends]

theorem readToken_quoted (hbody : Quoted body) (rest : List UInt8) :
    readToken (ascii '"' :: (body ++ ascii '"' :: rest)) =
      ⟨.string, ascii '"' :: (body ++ ascii '"' :: rest), rest⟩ := by
  have hread : readTokenAt (ascii '"') (body ++ ascii '"' :: rest) =
      orError .string (readString (body ++ ascii '"' :: rest)) := rfl
  rw [hbody.readString] at hread
  rw [readToken_cons rfl, hread]
  rfl

theorem readTokenAt_comment (h : (readTokenAt c current).1 = .comment) : c = ascii '/' := by
  by_contra hc
  have hother : ∀ type p, type ≠ .comment → (orError type p).1 ≠ .comment :=
    fun type p hne h => hne (orError_type h nofun).1
  unfold readTokenAt at h
  replace h := of_ite_type h nofun
  replace h := of_ite_type h nofun
  replace h := of_ite_type h nofun
  replace h := of_ite_type h nofun
  replace h := of_ite_type h (hother _ _ nofun)
  rw [if_neg hc] at h
  replace h := of_ite_type h nofun
  replace h := of_ite_type h (hother _ _ nofun)
  replace h := of_ite_type h (hother _ _ nofun)
  replace h := of_ite_type h (hother _ _ nofun)
  replace h := of_ite_type h nofun
  replace h := of_ite_type h nofun
  cases of_ite_type h nofun

/-- What is looked at behind the value of a member: a comment, or what comes behind the gap. -/
theorem Gap.comma (h : Gap true g) (hnext : (readToken current).type ≠ .comment) :
    readToken (g ++ current) = readToken current ∨
      (readToken (g ++ current)).type = .comment ∧
        readTokenPastComments (readToken (g ++ current)).stop = readToken current := by
  induction h with
  | nil => exact Or.inl rfl
  | @space c g hc _ ih =>
    rw [List.cons_append, readToken_space hc]
    exact ih
  | @cStyle body g _ hbody h =>
    obtain ⟨start, htoken⟩ := readToken_cStyle hbody (g ++ current)
    rw [List.append_assoc]
    refine Or.inr ?_
    have heq : readToken (ascii '/' :: ascii '*' :: body ++ (ascii '*' :: ascii '/' :: g ++ current)) =
        ⟨.comment, start, g ++ current⟩ := htoken
    rw [heq]
    exact ⟨rfl, readTokenPastComments_gap h hnext⟩
  | @cppStyle c body g _ hbody hc h =>
    obtain ⟨start, htoken⟩ := readToken_cppStyle (body ++ c :: (g ++ current))
    rw [List.append_assoc]
    refine Or.inr ?_
    have heq : readToken (ascii '/' :: ascii '/' :: body ++ (c :: g ++ current)) =
        ⟨.comment, start, readCppStyleComment (body ++ c :: (g ++ current))⟩ := htoken
    have hskip := readTokenPastComments_gap h hnext
    rw [heq]
    refine ⟨rfl, ?_⟩
    rcases readCppStyleComment_body hbody hc (g ++ current) with hbody | hbody
    · exact (congrArg readTokenPastComments hbody).trans hskip
    · generalize readCppStyleComment (body ++ c :: (g ++ current)) = stop at hbody
      cases h with
      | nil =>
        obtain rfl : current = ascii '\n' :: stop := hbody
        rw [readToken_space rfl] at hnext ⊢
        exact readTokenPastComments_gap (.nil : Gap true []) hnext
      | space _ h =>
        obtain rfl := (List.cons.inj hbody).2
        exact readTokenPastComments_gap h hnext
      | cStyle => exact absurd (List.cons.inj hbody).1 (by decide)
      | cppStyle => exact absurd (List.cons.inj hbody).1 (by decide)

end Json

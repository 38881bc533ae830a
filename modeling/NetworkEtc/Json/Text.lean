-- SUMMARY: The texts of a value, and that the reader finds the value in each of them.
import NetworkEtc.Json.Integers

/-!
# Texts

What a document may look like for the reader to find a value in it.
-/

namespace Json

open Library Library.Printf Library.Decimal

variable {δ : Type}

/-- The members of an object, when these are the members of its text. -/
def ofMembers (ms : List (List UInt8 × Value δ)) : List (List UInt8 × Value δ) :=
  ms.foldl (fun members m => OrderedMap.set m.1 m.2 members) []

section

variable (features : Features) (reals : Reals δ)

/-- What a number denotes: its integer, if it is one, or else the `double` that is read. -/
inductive IsNumber : List UInt8 → Value δ → Prop where
  | integer {t : List UInt8} {n : Int} (h : IsInteger t n) : IsNumber t (ofInteger n)
  | real {t : List UInt8} {value : δ} (hnot : ∀ n, ¬ IsInteger t n)
    (hread : reals.read t = some value) : IsNumber t (.real value)

/-- A name, and what stands in front of it and up to the colon. -/
inductive NameText : List UInt8 → List UInt8 → Prop where
  | string {g body name g' : List UInt8} (hg : Gap true g) (hbody : Spells body name)
    (hg' : Blank g') :
    NameText name (g ++ (ascii '"' :: (body ++ (ascii '"' :: (g' ++ [ascii ':'])))))
  | number {g t name g' : List UInt8} {v : Value δ} (hkeys : features.allowNumericKeys = true)
    (hg : Gap true g) (ht : NumberText t) (hv : IsNumber reals t v)
    (hname : asString reals v = .ok name) (hg' : Blank g') :
    NameText name (g ++ (t ++ (g' ++ [ascii ':'])))

mutual

/-- The texts of a value, and how deep they are nested. -/
inductive Text : Nat → Value δ → List UInt8 → Prop where
  | null : Text 1 .null (chars "null")
  | boolean (value : Bool) :
    Text 1 (.boolean value) (if value then chars "true" else chars "false")
  | number {t : List UInt8} {v : Value δ} (ht : NumberText t) (hv : IsNumber reals t v) :
    Text 1 v t
  | string {body s : List UInt8} (hbody : Spells body s) :
    Text 1 (.string s) (ascii '"' :: (body ++ [ascii '"']))
  | emptyArray {g : List UInt8} (hg : Blank g) :
    Text 1 (.array []) (ascii '[' :: (g ++ [ascii ']']))
  | array {d : Nat} {g ts : List UInt8} {vs : List (Value δ)} (hg : Gap features.allowComments g)
    (h : Elements d vs ts) : Text (d + 1) (.array vs) (ascii '[' :: (g ++ (ts ++ [ascii ']'])))
  | emptyObject {g : List UInt8} (hg : Gap true g) :
    Text 1 (.object []) (ascii '{' :: (g ++ [ascii '}']))
  | object {d : Nat} {ts : List UInt8} {ms : List (List UInt8 × Value δ)} (h : Members d ms ts) :
    Text (d + 1) (.object (ofMembers ms)) (ascii '{' :: (ts ++ [ascii '}']))

inductive Elements : Nat → List (Value δ) → List UInt8 → Prop where
  | last {d : Nat} {t g : List UInt8} {v : Value δ} (h : Text d v t) (hg : Gap true g) :
    Elements d [v] (t ++ g)
  | cons {d d' : Nat} {t g g' ts : List UInt8} {v : Value δ} {vs : List (Value δ)} (h : Text d v t)
    (hg : Gap true g) (hg' : Gap features.allowComments g') (hs : Elements d' vs ts) :
    Elements (max d d') (v :: vs) (t ++ (g ++ (ascii ',' :: (g' ++ ts))))

inductive Members : Nat → List (List UInt8 × Value δ) → List UInt8 → Prop where
  | last {d : Nat} {name n g t g' : List UInt8} {v : Value δ} (hname : NameText features reals name n)
    (hg : Gap features.allowComments g) (h : Text d v t) (hg' : Gap true g') :
    Members d [(name, v)] (n ++ (g ++ (t ++ g')))
  | cons {d d' : Nat} {name n g t g' ts : List UInt8} {v : Value δ}
    {ms : List (List UInt8 × Value δ)} (hname : NameText features reals name n)
    (hg : Gap features.allowComments g) (h : Text d v t) (hg' : Gap true g')
    (hs : Members d' ms ts) :
    Members (max d d') ((name, v) :: ms) (n ++ (g ++ (t ++ (g' ++ (ascii ',' :: ts)))))

end

end

variable {features : Features} {reals : Reals δ} {c : UInt8} {d room n : Nat} {v : Value δ}
  {vs done : List (Value δ)} {ms members : List (List UInt8 × Value δ)}
  {t ts g current rest name : List UInt8} {token : Token}

-- ---------------------------------------------------------------------------
-- Where texts begin
-- ---------------------------------------------------------------------------

/-- A text begins with its first token, which is no comment and does not end an array. -/
theorem Text.head (h : Text features reals d v t) :
    ∃ c t', t = c :: t' ∧ isSpace c = false ∧ c ≠ ascii '/' ∧ c ≠ ascii ']' := by
  cases h with
  | null => exact ⟨_, _, rfl, rfl, by decide, by decide⟩
  | boolean value => cases value <;> exact ⟨_, _, rfl, rfl, by decide, by decide⟩
  | number ht =>
    cases ht with
    | mk hc =>
      exact ⟨_, _, rfl, number_not_space hc, number_ne hc rfl (by decide),
        number_ne hc rfl (by decide)⟩
  | string => exact ⟨_, _, rfl, rfl, by decide, by decide⟩
  | emptyArray => exact ⟨_, _, rfl, rfl, by decide, by decide⟩
  | array => exact ⟨_, _, rfl, rfl, by decide, by decide⟩
  | emptyObject => exact ⟨_, _, rfl, rfl, by decide, by decide⟩
  | object => exact ⟨_, _, rfl, rfl, by decide, by decide⟩

theorem Elements.head (h : Elements features reals d vs ts) :
    ∃ c t', ts = c :: t' ∧ isSpace c = false ∧ c ≠ ascii '/' ∧ c ≠ ascii ']' := by
  cases h with
  | last h =>
    obtain ⟨c, t', rfl, hc⟩ := h.head
    exact ⟨c, _, rfl, hc⟩
  | cons h =>
    obtain ⟨c, t', rfl, hc⟩ := h.head
    exact ⟨c, _, rfl, hc⟩

theorem Text.not_comment (h : Text features reals d v t) (rest : List UInt8) :
    (readToken (t ++ rest)).type ≠ .comment := by
  obtain ⟨c, t', rfl, hspace, hslash, -⟩ := h.head
  rw [List.cons_append, readToken_cons hspace]
  exact fun htype => hslash (readTokenAt_comment htype)

theorem readValue_gap (hg : Gap features.allowComments g)
    (hnext : (readToken current).type ≠ .comment) (room : Nat) :
    readValue features reals room (g ++ current) = readValue features reals room current := by
  cases room with
  | zero => rfl
  | succ room =>
    have hself : skipCommentTokens features current = readToken current :=
      skipCommentTokens_gap (.nil : Gap features.allowComments []) hnext
    rw [readValue, readValue, skipCommentTokens_gap hg hnext, hself]

theorem skipCommentTokens_token (h : readToken current = token) (hne : token.type ≠ .comment) :
    skipCommentTokens features current = token :=
  (skipCommentTokens_gap (.nil : Gap features.allowComments []) (by rw [h]; exact hne)).trans h

-- ---------------------------------------------------------------------------
-- Numbers and names
-- ---------------------------------------------------------------------------

/-- The reader finds what a number denotes, wherever it stands. -/
theorem isNumber_iff (rest : List UInt8) :
    IsNumber reals t v ↔ decodeNumber reals ⟨.number, t ++ rest, rest⟩ = .ok v := by
  unfold decodeNumber decodeDouble
  rw [text_append]
  constructor
  · intro h
    cases h with
    | integer hn => rw [decodeInteger_iff.mpr ⟨_, hn, rfl⟩]
    | real hnot hread =>
      rw [decodeInteger_eq_none.mpr hnot]
      dsimp only
      rw [hread]
  · intro h
    cases hinteger : decodeInteger (δ := δ) t with
    | some value =>
      rw [hinteger] at h
      cases h
      obtain ⟨n, hn, rfl⟩ := decodeInteger_iff.mp hinteger
      exact .integer hn
    | none =>
      rw [hinteger] at h
      dsimp only at h
      split at h
      · cases h
      · next value hread =>
        cases h
        exact .real (decodeInteger_eq_none.mp hinteger) hread

theorem NameText.read (h : NameText features reals name t) (current : List UInt8) :
    (readTokenPastComments (t ++ current)).type ≠ .objectEnd ∧
      memberName features reals (readTokenPastComments (t ++ current)) = .ok name ∧
      readToken (readTokenPastComments (t ++ current)).stop =
        ⟨.memberSeparator, ascii ':' :: current, current⟩ := by
  cases h with
  | @string g body _ g' hg hbody hg' =>
    have htoken := readToken_quoted hbody.quoted (g' ++ ascii ':' :: current)
    have hpast := readTokenPastComments_gap hg (by rw [htoken]; nofun)
    have happend : g ++ (ascii '"' :: (body ++ (ascii '"' :: (g' ++ [ascii ':'])))) ++ current =
        g ++ (ascii '"' :: (body ++ ascii '"' :: (g' ++ ascii ':' :: current))) := by
      simp only [List.append_assoc, List.cons_append, List.nil_append]
    rw [happend, hpast, htoken]
    refine ⟨nofun, ?_, readToken_blank hg' (ascii ':' :: current)⟩
    exact (if_pos rfl).trans ((decodeString_quoted hbody.quoted _).mpr hbody)
  | @number g t _ g' v hkeys hg ht hv hname hg' =>
    have hends : Ends (g' ++ ascii ':' :: current) := (gap_of_blank hg' : Gap true g').ends rfl
    have htoken := readToken_number ht hends
    have hpast := readTokenPastComments_gap hg (by rw [htoken]; nofun)
    have happend : g ++ (t ++ (g' ++ [ascii ':'])) ++ current =
        g ++ (t ++ (g' ++ ascii ':' :: current)) := by
      simp only [List.append_assoc, List.cons_append, List.nil_append]
    rw [happend, hpast, htoken]
    refine ⟨nofun, ?_, readToken_blank hg' (ascii ':' :: current)⟩
    refine (if_neg nofun).trans ((if_pos ⟨rfl, hkeys⟩).trans ?_)
    rw [(isNumber_iff _).mp hv]
    exact hname

-- ---------------------------------------------------------------------------
-- Values
-- ---------------------------------------------------------------------------

theorem Gap.skipSpaces {comments : Bool} (hg : Gap comments g) (hspace : isSpace c = false)
    (hc : c ≠ ascii ']') (current : List UInt8) : ∃ g', Gap comments g' ∧
      skipSpaces (g ++ c :: current) = g' ++ c :: current ∧
      (g' ++ c :: current).headD 0 ≠ ascii ']' := by
  induction hg with
  | nil =>
    refine ⟨[], .nil, ?_, hc⟩
    exact List.dropWhile_cons_of_neg (by rw [hspace]; exact Bool.false_ne_true)
  | space hspace' _ ih =>
    obtain ⟨g', hg', heq, hhead⟩ := ih
    exact ⟨g', hg', (List.dropWhile_cons_of_pos hspace').trans heq, hhead⟩
  | cStyle hcomments hbody h =>
    exact ⟨_, .cStyle hcomments hbody h, rfl, (by decide : ascii '/' ≠ ascii ']')⟩
  | cppStyle hcomments hbody hc' h =>
    exact ⟨_, .cppStyle hcomments hbody hc' h, rfl, (by decide : ascii '/' ≠ ascii ']')⟩

theorem skipSpaces_blank (hg : Blank g) (current : List UInt8) :
    skipSpaces (g ++ current) = skipSpaces current :=
  List.dropWhile_append_of_pos hg

theorem readValue_scalar {x : Value δ × List UInt8}
    (h : ∀ room, readValue features reals (room + 1) current = .ok x) :
    readValue features reals room current = if 1 ≤ room then .ok x else .error .stackLimit := by
  cases room with
  | zero => rfl
  | succ room => exact (h room).trans (if_pos (Nat.le_add_left 1 room)).symm

theorem readValue_array (current : List UInt8) (room : Nat) :
    readValue features reals (room + 1) (ascii '[' :: current) =
      readArray (readValue features reals room)
        ⟨.arrayBegin, ascii '[' :: current, current⟩ := by
  have htoken : readToken (ascii '[' :: current) =
    ⟨.arrayBegin, ascii '[' :: current, current⟩ := rfl
  rw [readValue, skipCommentTokens_token htoken nofun]

theorem readValue_object (current : List UInt8) (room : Nat) :
    readValue features reals (room + 1) (ascii '{' :: current) =
      readObject (readValue features reals room) features reals
        ⟨.objectBegin, ascii '{' :: current, current⟩ := by
  have htoken : readToken (ascii '{' :: current) =
    ⟨.objectBegin, ascii '{' :: current, current⟩ := rfl
  rw [readValue, skipCommentTokens_token htoken nofun]

/-- One level deeper there is one level less left. -/
theorem ite_succ {α : Type} {d room : Nat} {x y : α} :
    (if d + 1 ≤ room + 1 then x else y) = if d ≤ room then x else y := by
  simp only [Nat.add_le_add_iff_right]

section

variable {read : List UInt8 → Except Failure (Value δ × List UInt8)} {current' start stop : List UInt8}
  {e : Failure}

theorem readElements_error (hread : read current = .error e) :
    readElements read (n + 1) done current = .error e := by
  rw [readElements, hread]

theorem readElements_last (hread : read current = .ok (v, current'))
    (htoken : readTokenPastComments current' = ⟨.arrayEnd, start, stop⟩) :
    readElements read (n + 1) done current = .ok (.array (done ++ [v]), stop) := by
  rw [readElements, hread]
  dsimp only
  rw [htoken]
  rfl

theorem readElements_next (hread : read current = .ok (v, current'))
    (htoken : readTokenPastComments current' = ⟨.arraySeparator, start, stop⟩) :
    readElements read (n + 1) done current = readElements read n (done ++ [v]) stop := by
  rw [readElements, hread]
  dsimp only
  rw [htoken]
  rfl

/-- `token` comes behind the value of a member, and comments. -/
def Comma (current : List UInt8) (token : Token) : Prop :=
  readToken current = token ∨
    (readToken current).type = .comment ∧ readTokenPastComments (readToken current).stop = token

theorem readMembers_error (hname : NameText features reals name t)
    (hread : read current = .error e) (name' : List UInt8) :
    readMembers read features reals (n + 1) name' members (t ++ current) = .error e := by
  obtain ⟨hend, hmember, hcolon⟩ := hname.read current
  rw [readMembers]
  dsimp only
  rw [if_neg fun h => hend h.1, hmember]
  dsimp only
  rw [hcolon, if_neg (not_not.mpr rfl), hread]

theorem readMembers_value (hname : NameText features reals name t)
    (hread : read current = .ok (v, current')) (hcomma : Comma current' token)
    (htoken : token.type = .objectEnd ∨ token.type = .arraySeparator) (name' : List UInt8) :
    readMembers read features reals (n + 1) name' members (t ++ current) =
      if token.type = .objectEnd then .ok (.object (OrderedMap.set name v members), token.stop)
      else readMembers read features reals n name (OrderedMap.set name v members) token.stop := by
  obtain ⟨hend, hmember, hcolon⟩ := hname.read current
  rw [readMembers]
  dsimp only
  rw [if_neg fun h => hend h.1, hmember]
  dsimp only
  rw [hcolon, if_neg (not_not.mpr rfl), hread]
  dsimp only
  rcases hcomma with hcomma | ⟨hcomment, hcomma⟩
  · have hcomment : token.type ≠ .comment := by
      rcases htoken with htype | htype <;> rw [htype] <;> nofun
    rw [hcomma, if_neg hcomment, if_neg]
    exact fun h => htoken.elim h.1 h.2.1
  · rw [if_pos hcomment, hcomma, if_neg fun h => h.2.2 hcomment]

end

mutual

/-- The reader finds the value in each of its texts, unless the text is nested too deep. -/
theorem readValue_text : ∀ {d : Nat} {v : Value δ} {t : List UInt8},
    Text features reals d v t → ∀ {room : Nat} {rest : List UInt8}, Ends rest →
      readValue features reals room (t ++ rest) =
        if d ≤ room then .ok (v, rest) else .error .stackLimit
  | _, _, _, .null, room, rest, _ => readValue_scalar fun room => by
    have htoken : readToken (chars "null" ++ rest) = ⟨.null, chars "null" ++ rest, rest⟩ := rfl
    rw [readValue, skipCommentTokens_token htoken nofun]
  | _, _, _, .boolean true, room, rest, _ => readValue_scalar fun room => by
    have htoken : readToken (chars "true" ++ rest) = ⟨.true, chars "true" ++ rest, rest⟩ := rfl
    rw [if_pos rfl, readValue, skipCommentTokens_token htoken nofun]
  | _, _, _, .boolean false, room, rest, _ => readValue_scalar fun room => by
    have htoken : readToken (chars "false" ++ rest) = ⟨.false, chars "false" ++ rest, rest⟩ := rfl
    rw [if_neg nofun, readValue, skipCommentTokens_token htoken nofun]
  | _, _, _, .number ht hv, room, rest, hends => readValue_scalar fun room => by
    rw [readValue, skipCommentTokens_token (readToken_number ht hends) nofun]
    dsimp only
    rw [(isNumber_iff _).mp hv]
    rfl
  | _, _, _, .string hbody, room, rest, _ => readValue_scalar fun room => by
    rw [List.cons_append, List.append_assoc, List.singleton_append, readValue,
      skipCommentTokens_token (readToken_quoted hbody.quoted rest) nofun]
    exact map_eq_ok.mpr ⟨_, (decodeString_quoted hbody.quoted rest).mpr hbody, rfl⟩
  | _, _, _, .emptyArray hg, room, rest, _ => readValue_scalar fun room => by
    rw [List.cons_append, List.append_assoc, List.singleton_append, readValue_array]
    unfold readArray
    dsimp only
    have hskip := skipSpaces_blank hg (ascii ']' :: rest)
    rw [hskip]
    exact if_pos rfl
  | _, _, _, .array hg h, room, rest, _ => by
    cases room with
    | zero => rfl
    | succ room =>
      rw [List.cons_append, List.append_assoc, List.append_assoc, List.singleton_append,
        readValue_array, ite_succ]
      obtain ⟨c, ts, hts, hspace, -, hc⟩ := h.head
      obtain ⟨g', hg', heq, hhead⟩ := hg.skipSpaces hspace hc (ts ++ ascii ']' :: rest)
      rw [← List.cons_append, ← hts] at heq hhead
      unfold readArray
      dsimp only
      rw [heq, if_neg hhead]
      refine readElements_text h hg' ?_
      rw [List.length_append, List.length_append]
      omega
  | _, _, _, .emptyObject hg, room, rest, _ => readValue_scalar fun room => by
    rw [List.cons_append, List.append_assoc, List.singleton_append, readValue_object]
    have htoken : readTokenPastComments (_ ++ ascii '}' :: rest) = ⟨.objectEnd, _, rest⟩ :=
      readTokenPastComments_gap hg nofun
    unfold readObject readMembers
    dsimp only
    rw [htoken]
    exact if_pos ⟨rfl, rfl⟩
  | _, _, _, .object h, room, rest, _ => by
    cases room with
    | zero => rfl
    | succ room =>
      rw [List.cons_append, List.append_assoc, List.singleton_append, readValue_object,
        ite_succ]
      refine readMembers_text h ?_
      rw [List.length_append]
      omega

theorem readElements_text : ∀ {d : Nat} {vs : List (Value δ)} {ts : List UInt8},
    Elements features reals d vs ts → ∀ {g : List UInt8} {room n : Nat} {done : List (Value δ)}
      {rest : List UInt8}, Gap features.allowComments g → ts.length < n →
      readElements (readValue features reals room) n done (g ++ (ts ++ ascii ']' :: rest)) =
        if d ≤ room then .ok (.array (done ++ vs), rest) else .error .stackLimit
  | _, _, _, @Elements.last _ _ _ d t g' v h hg', g, room, n, done, rest, hg, hn => by
    obtain ⟨n, rfl⟩ := Nat.exists_eq_add_one_of_ne_zero (Nat.ne_zero_of_lt hn)
    have hread : readValue features reals room (g ++ (t ++ (g' ++ ascii ']' :: rest))) = _ :=
      (readValue_gap hg (h.not_comment _) room).trans (readValue_text h (hg'.ends rfl))
    rw [List.append_assoc]
    by_cases hroom : d ≤ room
    · rw [if_pos hroom] at hread ⊢
      exact readElements_last hread (readTokenPastComments_gap hg' nofun)
    · rw [if_neg hroom] at hread ⊢
      exact readElements_error hread
  | _, _, _, @Elements.cons _ _ _ d d' t g₁ g₂ ts v vs h hg₁ hg₂ hs, g, room, n, done, rest, hg,
      hn => by
    obtain ⟨n, rfl⟩ := Nat.exists_eq_add_one_of_ne_zero (Nat.ne_zero_of_lt hn)
    have happend : t ++ (g₁ ++ (ascii ',' :: (g₂ ++ ts))) ++ ascii ']' :: rest =
        t ++ (g₁ ++ (ascii ',' :: (g₂ ++ (ts ++ ascii ']' :: rest)))) := by
      simp only [List.append_assoc, List.cons_append]
    have hread : readValue features reals room
        (g ++ (t ++ (g₁ ++ ascii ',' :: (g₂ ++ (ts ++ ascii ']' :: rest))))) = _ :=
      (readValue_gap hg (h.not_comment _) room).trans (readValue_text h (hg₁.ends rfl))
    rw [happend]
    by_cases hroom : d ≤ room
    · rw [if_pos hroom] at hread
      have hrest : readElements (readValue features reals room) n (done ++ [v])
          (g₂ ++ (ts ++ ascii ']' :: rest)) = _ :=
        readElements_text hs hg₂ (by simp only [List.length_append, List.length_cons] at hn; omega)
      refine (readElements_next hread (readTokenPastComments_gap hg₁ nofun)).trans
        (hrest.trans ?_)
      rw [List.append_assoc, List.singleton_append]
      exact if_congr (by omega) rfl rfl
    · rw [if_neg hroom] at hread
      rw [if_neg fun h => hroom (le_of_max_le_left h)]
      exact readElements_error hread

theorem readMembers_text : ∀ {d : Nat} {ms : List (List UInt8 × Value δ)} {ts : List UInt8},
    Members features reals d ms ts → ∀ {room n : Nat} {name : List UInt8}
      {done : List (List UInt8 × Value δ)} {rest : List UInt8}, ts.length < n →
      readMembers (readValue features reals room) features reals n name done
          (ts ++ ascii '}' :: rest) =
        if d ≤ room then
          .ok (.object (ms.foldl (fun members m => OrderedMap.set m.1 m.2 members) done), rest)
        else .error .stackLimit
  | _, _, _, @Members.last _ _ _ d name t₀ g t g' v hname hg h hg', room, n, _, done, rest, hn => by
    obtain ⟨n, rfl⟩ := Nat.exists_eq_add_one_of_ne_zero (Nat.ne_zero_of_lt hn)
    have hread : readValue features reals room (g ++ (t ++ (g' ++ ascii '}' :: rest))) = _ :=
      (readValue_gap hg (h.not_comment _) room).trans (readValue_text h (hg'.ends rfl))
    have hcomma : Comma (g' ++ ascii '}' :: rest) ⟨.objectEnd, ascii '}' :: rest, rest⟩ :=
      hg'.comma nofun
    simp only [List.append_assoc]
    by_cases hroom : d ≤ room
    · rw [if_pos hroom] at hread ⊢
      exact (readMembers_value hname hread hcomma (Or.inl rfl) _).trans (if_pos rfl)
    · rw [if_neg hroom] at hread ⊢
      exact readMembers_error hname hread _
  | _, _, _, @Members.cons _ _ _ d d' name t₀ g t g' ts v ms hname hg h hg' hs, room, n, _, done,
      rest, hn => by
    obtain ⟨n, rfl⟩ := Nat.exists_eq_add_one_of_ne_zero (Nat.ne_zero_of_lt hn)
    have hread : readValue features reals room
        (g ++ (t ++ (g' ++ ascii ',' :: (ts ++ ascii '}' :: rest)))) = _ :=
      (readValue_gap hg (h.not_comment _) room).trans (readValue_text h (hg'.ends rfl))
    have hcomma : Comma (g' ++ ascii ',' :: (ts ++ ascii '}' :: rest)) ⟨.arraySeparator, _, _⟩ :=
      hg'.comma nofun
    simp only [List.append_assoc, List.cons_append]
    by_cases hroom : d ≤ room
    · rw [if_pos hroom] at hread
      have hrest : readMembers (readValue features reals room) features reals n name
          (OrderedMap.set name v done) (ts ++ ascii '}' :: rest) = _ :=
        readMembers_text hs (by simp only [List.length_append, List.length_cons] at hn; omega)
      refine (readMembers_value hname hread hcomma (Or.inr rfl) _).trans ((if_neg nofun).trans
        (hrest.trans ?_))
      exact if_congr (by omega) rfl rfl
    · rw [if_neg hroom] at hread
      rw [if_neg fun h => hroom (le_of_max_le_left h)]
      exact readMembers_error hname hread _

end

/-- `parse` gives the value that is read, or what is wrong with it. -/
theorem parse_of_readValue (hread : readValue features reals stackLimit t =
      if d ≤ stackLimit then .ok (v, rest) else .error .stackLimit)
    (hroot : features.strictRoot = true → v.isArray = true ∨ v.isObject = true) (root : Value δ) :
    parse features reals root t = if d ≤ stackLimit then .ok v else .error .stackLimit := by
  unfold parse
  rw [hread]
  by_cases hlimit : d ≤ stackLimit
  · rw [if_pos hlimit, if_pos hlimit]
    refine if_neg ?_
    rintro ⟨hstrict, harray, hobject⟩
    rw [harray, hobject] at hroot
    exact (hroot hstrict).elim nofun nofun
  · rw [if_neg hlimit, if_neg hlimit]

/-- A document with a text of a value in it, behind a gap and in front of anything that does not go
on with a number, is read to the value. One that is nested too deep is not read. -/
theorem parse_text (hg : Gap features.allowComments g) (h : Text features reals d v t)
    (hends : Ends rest)
    (hroot : features.strictRoot = true → v.isArray = true ∨ v.isObject = true) (root : Value δ) :
    parse features reals root (g ++ (t ++ rest)) =
      if d ≤ stackLimit then .ok v else .error .stackLimit :=
  parse_of_readValue
    ((readValue_gap hg (h.not_comment rest) stackLimit).trans (readValue_text h hends)) hroot root

/-- Real numbers, if 0.5 were the only one. -/
def Reals.half : Reals Unit where
  isFinite _ := true
  isNaN _ := false
  isNegative _ := false
  print _ := chars "0.5"
  read t := if t = chars "0.5" then some () else none

/-- An array with a comment in front of it, and another behind its element. -/
theorem parse_text_commented :
    Gap true (chars "/*a*/ ") ∧ Text .all .half 2 (.array [.null]) (chars "[null//b\n]") ∧
      Ends [] ∧ parse .all .half .null (chars "/*a*/ [null//b\n]") = .ok (.array [.null]) := by
  have hg : Gap true (chars "/*a*/ ") :=
    .cStyle rfl (by decide : ¬ [ascii '*', ascii '/'] <:+: [ascii 'a']) (.space rfl .nil)
  have hg' : Gap true (chars "//b\n") :=
    .cppStyle rfl (List.forall_mem_singleton.mpr ⟨by decide, by decide⟩) (Or.inl rfl) .nil
  have h : Text .all .half 2 (.array [.null]) (chars "[null//b\n]") := .array .nil (.last .null hg')
  have hends : Ends [] := rfl
  exact ⟨hg, h, hends, parse_text hg h hends nofun .null⟩

end Json

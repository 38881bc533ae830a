-- SUMMARY: SeekCrlf against the first line end of a buffer.
import NetworkEtc.HTTPClient.ChunkBounds

/-!
# `SeekCrlf`

It goes on while `p[0]` is no `CR` and `p[1]` is no `LF`, so one of the two is enough to stop it,
and at the last byte it reads the one behind the buffer.
-/

namespace HTTPClient

open Library Library.Printf

/-- `CR` and `LF` stand at `i`, inside the buffer. -/
def CrlfAt (buffer : List UInt8) (i : Nat) : Prop :=
  buffer[i]? = some cr ∧ buffer[i + 1]? = some lf

/-- The first `CR` `LF`, without a zero in front of it. -/
structure FirstCrlf (buffer : List UInt8) (i : Nat) : Prop where
  here : CrlfAt buffer i
  first : ∀ j < i, ¬ CrlfAt buffer j
  nonzero : ∀ j < i, buffer[j]? ≠ some 0

/-- `SeekCrlf` of the buffer reads nothing outside of it and returns the position of the first line
end, or `NULL` where there is none. -/
def SeeksCrlf (buffer : List UInt8) : Prop :=
  ∃ r, seekCrlfIn buffer 0 = some r ∧ ∀ i, r = some i ↔ FirstCrlf buffer i

/-- A text, and a zero or a line end behind it. No byte of the text is zero or a `CR`, and only its
first one may be a `LF`. -/
structure EndsFirst (text rest : List UInt8) : Prop where
  stop : rest.head? = some 0 ∨ [cr, lf] <+: rest
  nonzero : 0 ∉ text
  no_cr : cr ∉ text
  no_lf : lf ∉ text.tail

section

variable {go : UInt8 → List UInt8 → Option Bool} {l text rest buffer : List UInt8} {r : Option Nat}
  {i : Nat}

/-! # Where a scanner stops -/

/-- A scanner goes on at each byte of the text. -/
def Passes (go : UInt8 → List UInt8 → Option Bool) (text rest : List UInt8) : Prop :=
  ∀ a c b, text = a ++ c :: b → c ≠ 0 ∧ go c (b ++ rest) = some true

theorem Passes.of_cons {c : UInt8} (h : Passes go (c :: text) rest) :
    c ≠ 0 ∧ go c (text ++ rest) = some true ∧ Passes go text rest := by
  obtain ⟨hne, hgo⟩ := h [] c text rfl
  exact ⟨hne, hgo, fun a e b hsplit => h (c :: a) e b (by rw [hsplit, List.cons_append])⟩

theorem passes_nil : Passes go [] rest := by
  intro a c b h
  exact absurd h.symm (by simp)

theorem Passes.cons {c : UInt8} (hc : c ≠ 0) (hgo : go c (text ++ rest) = some true)
    (h : Passes go text rest) : Passes go (c :: text) rest := by
  intro a e b hsplit
  cases a with
  | nil =>
    cases hsplit
    exact ⟨hc, hgo⟩
  | cons d a =>
    obtain ⟨rfl, htail⟩ := List.cons.inj hsplit
    exact h a e b htail

/-- What has been passed where the scanner has come to its end. -/
inductive Stopped (go : UInt8 → List UInt8 → Option Bool) : List UInt8 → Option Nat → Prop where
  | all {text : List UInt8} : Passes go text [] → Stopped go text none
  | zero {text rest : List UInt8} : Passes go text (0 :: rest) → Stopped go (text ++ 0 :: rest) none
  | here {text rest : List UInt8} {c : UInt8} : Passes go text (c :: rest) → c ≠ 0 →
      go c rest = some false → Stopped go (text ++ c :: rest) (some text.length)

theorem scanIn_stopped (h : scanIn go l.length l = some r) : Stopped go l r := by
  induction l generalizing r with
  | nil =>
    cases h
    exact .all passes_nil
  | cons c l ih =>
    rw [List.length_cons, scanIn] at h
    split at h
    · next hzero =>
      cases h
      subst hzero
      exact @Stopped.zero go [] l passes_nil
    · next hne =>
      obtain ⟨goes, hgoes, h⟩ := Option.bind_eq_some_iff.mp h
      cases goes with
      | false =>
        cases h
        exact @Stopped.here go [] l c passes_nil hne hgoes
      | true =>
        obtain ⟨q, hq, rfl⟩ := Option.map_eq_some_iff.mp h
        cases ih hq with
        | all hpasses =>
          exact .all (hpasses.cons hne (by rwa [List.append_nil]))
        | zero hpasses => exact .zero (hpasses.cons hne hgoes)
        | here hpasses hstop hgo => exact .here (hpasses.cons hne hgoes) hstop hgo

/-! # The first line end -/

/-- What stands behind the buffer is no matter. -/
theorem SeeksCrlf.seekCrlf_append (h : SeeksCrlf buffer) (behind : List UInt8) (i : Nat) :
    seekCrlf (buffer ++ behind) (some 0) buffer.length = some i ↔ FirstCrlf buffer i := by
  obtain ⟨r, hr, hfirst⟩ := h
  have hseek := seekCrlfIn_agrees hr behind
  rw [Int.natCast_zero, sub_zero] at hseek
  rw [hseek]
  exact hfirst i

theorem FirstCrlf.unique {j : Nat} (hi : FirstCrlf buffer i) (hj : FirstCrlf buffer j) : i = j := by
  rcases Nat.lt_trichotomy i j with hlt | heq | hgt
  · exact absurd hi.here (hj.first i hlt)
  · exact heq
  · exact absurd hj.here (hi.first j hgt)

/-- In a text without `CR` no line end begins. -/
theorem not_crlfAt (hcr : cr ∉ text) (hi : i < text.length) : ¬ CrlfAt (text ++ rest) i := by
  rintro ⟨hat, -⟩
  rw [List.getElem?_append_left hi] at hat
  exact hcr (List.mem_of_getElem? hat)

theorem firstCrlf_append (hzero : 0 ∉ text) (hcr : cr ∉ text) (rest : List UInt8) :
    FirstCrlf (text ++ cr :: lf :: rest) text.length := by
  refine ⟨⟨by simp, ?_⟩, fun j hj => not_crlfAt hcr hj, fun j hj hat => ?_⟩
  · rw [List.getElem?_append_right (Nat.le_add_right ..), Nat.add_sub_cancel_left]
    rfl
  · rw [List.getElem?_append_left hj] at hat
    exact hzero (List.mem_of_getElem? hat)

theorem not_firstCrlf_append (hcr : cr ∉ text) : ¬ FirstCrlf (text ++ 0 :: rest) i := by
  intro h
  have hzero : (text ++ 0 :: rest)[text.length]? = some 0 := by simp
  rcases Nat.lt_trichotomy i text.length with hlt | rfl | hgt
  · exact not_crlfAt hcr hlt h.here
  · have hat := h.here.1
    rw [hzero] at hat
    exact absurd hat (by decide)
  · exact h.nonzero _ hgt hzero

/-! # `SeekCrlf` -/

/-- The condition of its loop. -/
def seekGo (c : UInt8) (rest : List UInt8) : Option Bool :=
  if c = cr then some false else rest.head?.map (· ≠ lf)

theorem seekCrlfIn_zero (hlen : 2 ≤ buffer.length) :
    seekCrlfIn buffer 0 = scanIn seekGo buffer.length buffer := by
  have hlong : ¬ (buffer.length : Int) - (0 : Nat) < 2 := by omega
  have hseek : seekCrlfIn buffer 0 =
      (scanIn seekGo ((buffer.length : Int) - (0 : Nat)).toNat (buffer.drop 0)).map
        (Option.map (0 + ·)) := if_neg hlong
  rw [hseek, List.drop_zero, Int.natCast_zero, sub_zero, Int.toNat_natCast]
  simp

theorem seekGo_eq_true {c : UInt8} : seekGo c l = some true ↔ c ≠ cr ∧ ∃ e ∈ l.head?, e ≠ lf := by
  unfold seekGo
  split
  · next hcr => simp [hcr]
  · next hcr => simp [hcr, Option.map_eq_some_iff]

/-- The bytes that are passed. -/
theorem passes_iff : Passes seekGo text rest ↔
    0 ∉ text ∧ cr ∉ text ∧ lf ∉ text.tail ∧ (text = [] ∨ ∃ c ∈ rest.head?, c ≠ lf) := by
  induction text with
  | nil => simp [passes_nil]
  | cons c text ih =>
    constructor
    · intro h
      obtain ⟨hne, hgo, htail⟩ := h.of_cons
      obtain ⟨hcr, e, he, hlf⟩ := seekGo_eq_true.mp hgo
      obtain ⟨hzero, hcr', hlf', hrest⟩ := ih.mp htail
      refine ⟨by simp [hne.symm, hzero], by simp [hcr.symm, hcr'], ?_, Or.inr ?_⟩
      · cases text with
        | nil => exact List.not_mem_nil
        | cons d text =>
          cases he
          simp only [List.tail_cons, List.mem_cons, not_or] at hlf' ⊢
          exact ⟨hlf.symm, hlf'⟩
      · cases text with
        | nil => exact ⟨e, he, hlf⟩
        | cons d text => exact hrest.resolve_left (List.cons_ne_nil d text)
    · rintro ⟨hzero, hcr, hlf, hrest⟩
      simp only [List.mem_cons, not_or, List.tail_cons] at hzero hcr hlf
      have hnext := hrest.resolve_left (List.cons_ne_nil c text)
      refine (ih.mpr ⟨hzero.2, hcr.2, fun h => hlf (List.mem_of_mem_tail h), Or.inr hnext⟩).cons
        (Ne.symm hzero.1) (seekGo_eq_true.mpr ⟨Ne.symm hcr.1, ?_⟩)
      cases text with
      | nil => exact hnext
      | cons d text => exact ⟨d, rfl, fun h => hlf (h ▸ List.mem_cons_self)⟩

theorem EndsFirst.passes (h : EndsFirst text rest) : Passes seekGo text rest := by
  refine passes_iff.mpr ⟨h.nonzero, h.no_cr, h.no_lf, Or.inr ?_⟩
  rcases h.stop with hzero | ⟨behind, rfl⟩
  · exact ⟨0, hzero, by decide⟩
  · exact ⟨cr, rfl, by decide⟩

/-- Behind bytes that are passed, the scanner goes on as if it began there. -/
theorem Passes.seekCrlfIn (h : Passes seekGo text rest) (hlen : 2 ≤ (text ++ rest).length) :
    seekCrlfIn (text ++ rest) 0 =
      (scanIn seekGo rest.length rest).map (Option.map (text.length + ·)) := by
  rw [seekCrlfIn_zero hlen, List.length_append, scanIn_append h]

theorem EndsFirst.seeksCrlf (h : EndsFirst text rest) (hlen : 2 ≤ (text ++ rest).length) :
    SeeksCrlf (text ++ rest) := by
  have hrun := h.passes.seekCrlfIn hlen
  rcases h.stop with hzero | ⟨behind, rfl⟩
  · obtain ⟨behind, rfl⟩ := List.head?_eq_some_iff.mp hzero
    have hstop : scanIn seekGo (0 :: behind).length (0 :: behind) = some none := rfl
    rw [hstop] at hrun
    refine ⟨none, hrun, fun i => ⟨nofun, fun hfirst => ?_⟩⟩
    exact absurd hfirst (not_firstCrlf_append h.no_cr)
  · have hstop : scanIn seekGo (cr :: lf :: behind).length (cr :: lf :: behind) =
        some (some 0) := rfl
    have hfirst := firstCrlf_append h.nonzero h.no_cr behind
    refine ⟨some text.length, hrun.trans (congrArg _ hstop), fun i => ?_⟩
    rw [Option.some.injEq]
    exact ⟨fun heq => heq ▸ hfirst, fun hi => hfirst.unique hi⟩

/-- Where the result is right, the scanner has stopped at a zero or at a line end. -/
theorem SeeksCrlf.exists_endsFirst (h : SeeksCrlf buffer) (hlen : 2 ≤ buffer.length) :
    ∃ text rest, buffer = text ++ rest ∧ EndsFirst text rest := by
  obtain ⟨r, hr, hfirst⟩ := h
  rw [seekCrlfIn_zero hlen] at hr
  cases scanIn_stopped hr with
  | all hpasses =>
    -- there is a byte, and the one behind it would have to be read
    obtain ⟨-, -, -, hrest⟩ := passes_iff.mp hpasses
    rcases hrest with rfl | ⟨c, hc, -⟩
    · exact absurd hlen (by decide)
    · exact absurd hc (by simp)
  | zero hpasses =>
    obtain ⟨hzero, hcr, hlf, -⟩ := passes_iff.mp hpasses
    exact ⟨_, _, rfl, ⟨Or.inl rfl, hzero, hcr, hlf⟩⟩
  | @here text rest c hpasses =>
    obtain ⟨hzero, hcr, hlf, -⟩ := passes_iff.mp hpasses
    have hat := (hfirst text.length).mp rfl
    obtain ⟨hhere, hnext⟩ := hat.here
    rw [List.getElem?_append_right le_rfl, Nat.sub_self] at hhere
    rw [List.getElem?_append_right (Nat.le_add_right ..), Nat.add_sub_cancel_left] at hnext
    cases hhere
    obtain ⟨behind, rfl⟩ := List.head?_eq_some_iff.mp ((List.head?_eq_getElem? ..).trans hnext)
    exact ⟨_, _, rfl, ⟨Or.inr ⟨behind, rfl⟩, hzero, hcr, hlf⟩⟩

theorem seeksCrlf_short (hlen : buffer.length < 2) : SeeksCrlf buffer := by
  refine ⟨none, seekCrlfIn_short (List.drop_zero ..) hlen, fun i => ⟨nofun, fun hfirst => ?_⟩⟩
  have hlt := (List.getElem?_eq_some_iff.mp hfirst.here.2).1
  omega

/-- `SeekCrlf` is right for buffers of less than two bytes, and for those where the first zero or
line end comes before any other `CR` and any other `LF`, but for one in the first byte. -/
theorem seeksCrlf_iff (buffer : List UInt8) :
    SeeksCrlf buffer ↔
      buffer.length < 2 ∨ ∃ text rest, buffer = text ++ rest ∧ EndsFirst text rest := by
  constructor
  · intro h
    rcases Nat.lt_or_ge buffer.length 2 with hlt | hge
    · exact Or.inl hlt
    · exact Or.inr (h.exists_endsFirst hge)
  · intro h
    rcases Nat.lt_or_ge buffer.length 2 with hlt | hge
    · exact seeksCrlf_short hlt
    · obtain ⟨text, rest, rfl, hends⟩ := h.resolve_left (Nat.not_lt.mpr hge)
      exact hends.seeksCrlf hge

/-- A `LF` stops it, one byte early; behind that there is a line end. -/
theorem not_seeksCrlf_loneFeed : ¬ SeeksCrlf [97, lf, 98, cr, lf] := by
  rintro ⟨r, hr, hfirst⟩
  have hrun : seekCrlfIn [97, lf, 98, cr, lf] 0 = some (some 0) := rfl
  rw [hrun] at hr
  have hzero := (hfirst 0).mp (Option.some.inj hr).symm
  exact absurd hzero.here.1 (by decide)

end

end HTTPClient

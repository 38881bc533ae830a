-- SUMMARY: Which answers of `send` make `CEventDo::Write` close the session.
import NetworkEtc.Netfram.SessionWrite

/-!
# A slow peer

If bytes are left after a `send`, `CEventDo::Write` asks `errno` whether they are to wait.
But a `send` that takes some bytes leaves `errno` as it was, and after `EAGAIN` the -2 that
`COsAction::Send` returns goes to `SetRead`, which refuses it and sets `errno` to `ENODATA`.
-/

namespace Netfram

/-- What `COsAction::Send` returns. -/
def Answer.result (auSize : Nat) : Answer → Int
  | .room n => (min (n + 1) (min auSize maxTransfer) : Nat)
  | .zero => 0
  | .again => minaAgain
  | .failed => minaError

/-- How many bytes it has sent. -/
def Answer.accepted (auSize : Nat) : Answer → Nat
  | .room n => min (n + 1) (min auSize maxTransfer)
  | _ => 0

/-- What `COsAction::Send` leaves in `errno`. A call that sends does not set it, an
interrupted one before it does. -/
def Kernel.left (kernel : Kernel) : Errno :=
  match kernel.answer with
  | .again => .eagain
  | .failed => .other
  | _ => if kernel.interrupted = 0 then kernel.errno else .eintr

namespace Session

variable {s : Session} {abPost : Bool} {kernel : Kernel}

theorem send_spec (s : Session) (auSize : Nat) (kernel : Kernel) :
    ∃ s', s.send auSize kernel = (kernel.answer.result auSize, kernel.left, s') ∧
      s'.block = s.block ∧ s'.closed = s.closed := by
  obtain ⟨errno, interrupted, answer⟩ := kernel
  unfold send
  induction interrupted generalizing errno s with
  | zero =>
    cases answer with
    | room n => exact ⟨_, rfl, rfl, rfl⟩
    | zero => exact ⟨_, rfl, rfl, rfl⟩
    | again => exact ⟨_, rfl, rfl, rfl⟩
    | failed => exact ⟨_, rfl, rfl, rfl⟩
  | succ interrupted ih =>
    obtain ⟨s', hsend, hblock, hclosed⟩ := ih { s with ready := false } .eintr
    refine ⟨s', ?_, hblock, hclosed⟩
    rw [sendLoop, hsend]
    cases answer with
    | room n => simp [Kernel.left]
    | zero => simp [Kernel.left]
    | again => rfl
    | failed => rfl

theorem closed_conclude {errno : Errno} {block : CMemblock} :
    (s.conclude abPost errno block).2.closed =
      (s.closed || decide ((s.conclude abPost errno block).1 = minaError)) := by
  unfold conclude
  split
  · split
    · simp [minaAgain, minaError]
    · simp
  · simp [minaOk, minaError]

/-- `Write` returns `MINA_ERROR` where it closes the session, and nowhere else. -/
theorem closed_eventDoWrite : (s.eventDoWrite abPost kernel).2.closed =
    (s.closed || decide ((s.eventDoWrite abPost kernel).1 = minaError)) := by
  unfold eventDoWrite
  split
  · simp [minaOk, minaError]
  · obtain ⟨s', hsend, -, hclosed⟩ := s.send_spec s.block.getSize kernel
    rw [hsend, ← hclosed]
    exact closed_conclude

variable (abPost) in
/-- `EAGAIN` and a hard error end alike. -/
theorem eventDoWrite_refused (h : s.block.Layout) (hne : s.block.getSize ≠ 0)
    (hanswer : kernel.answer = .again ∨ kernel.answer = .failed) :
    (s.eventDoWrite abPost kernel).1 = minaError := by
  obtain ⟨s', hsend, hblock, -⟩ := s.send_spec s.block.getSize kernel
  have hresult : kernel.answer.result s.block.getSize = minaAgain ∨
      kernel.answer.result s.block.getSize = minaError := by
    rcases hanswer with heq | heq
    · exact .inl (by rw [heq]; rfl)
    · exact .inr (by rw [heq]; rfl)
  unfold eventDoWrite
  rw [if_neg hne, hsend]
  simp only
  rw [hblock, setRead_negative h hresult, if_pos rfl, conclude, if_pos hne, if_neg (by decide)]

theorem accepted_le (answer : Answer) (auSize : Nat) : answer.accepted auSize ≤ auSize := by
  cases answer with
  | room n => exact (Nat.min_le_right ..).trans (Nat.min_le_left ..)
  | zero => exact Nat.zero_le _
  | again => exact Nat.zero_le _
  | failed => exact Nat.zero_le _

variable (abPost) in
/-- Where `send` has not taken all the bytes, the others stay, and `errno` decides. -/
theorem eventDoWrite_accepted (h : s.block.Layout) (hne : s.block.getSize ≠ 0)
    (hagain : kernel.answer ≠ .again) (hfailed : kernel.answer ≠ .failed) :
    (kernel.answer.accepted s.block.getSize = s.block.getSize →
      (s.eventDoWrite abPost kernel).1 = minaOk) ∧
    (kernel.answer.accepted s.block.getSize < s.block.getSize →
      (s.eventDoWrite abPost kernel).1 =
          (if kernel.left = .eagain ∨ kernel.left = .eintr then minaAgain else minaError) ∧
        (s.eventDoWrite abPost kernel).2.block.unread =
          s.block.unread.drop (kernel.answer.accepted s.block.getSize)) := by
  obtain ⟨s', hsend, hblock, -⟩ := s.send_spec s.block.getSize kernel
  have haccepted : kernel.answer.result s.block.getSize = kernel.answer.accepted s.block.getSize ∧
      kernel.answer.accepted s.block.getSize ≤ maxTransfer := by
    cases hanswer : kernel.answer with
    | room n =>
      exact ⟨rfl, (Nat.min_le_right ..).trans (Nat.min_le_right ..)⟩
    | zero => exact ⟨rfl, Nat.zero_le _⟩
    | again => exact absurd hanswer hagain
    | failed => exact absurd hanswer hfailed
  have hn := accepted_le kernel.answer s.block.getSize
  generalize kernel.answer.accepted s.block.getSize = n at *
  obtain ⟨hresult, hmax⟩ := haccepted
  have hread : s.block.setRead n = (some n, (s.block.setRead n).2) := by
    rw [CMemblock.setRead, if_neg]
    rintro (hzero | hless)
    · exact hne hzero
    · exact absurd hn (Nat.not_le_of_lt hless)
  have hsize : (s.block.setRead n).2.getSize = s.block.getSize - n := by
    rw [CMemblock.setRead, if_neg]
    · rfl
    rintro (hzero | hless)
    · exact hne hzero
    · exact absurd hn (Nat.not_le_of_lt hless)
  have hunread := (h.setRead n).2
  rw [hread] at hunread
  unfold eventDoWrite
  rw [if_neg hne, hsend, hresult]
  simp only [toNat_bmod hmax]
  rw [hblock, hread, if_neg (Option.some_ne_none n)]
  unfold conclude
  rw [hsize]
  constructor
  · rintro rfl
    rw [if_neg (by simp)]
  · intro hless
    rw [if_pos (Nat.sub_ne_zero_of_lt hless)]
    split
    · exact ⟨rfl, hunread.2.2⟩
    · exact ⟨rfl, hunread.2.2⟩

/-- What `Write` is to do with a slow peer: close the session on a hard error only, and let
the bytes wait that `send` has not taken. -/
def Patient (s : Session) (abPost : Bool) (kernel : Kernel) : Prop :=
  ((s.eventDoWrite abPost kernel).1 = minaError →
    s.block.getSize ≠ 0 ∧ kernel.answer = .failed) ∧
  (s.block.getSize ≠ 0 → kernel.answer.accepted s.block.getSize < s.block.getSize →
    (∃ n, kernel.answer = .room n) ∨ kernel.answer = .again →
      (s.eventDoWrite abPost kernel).1 = minaAgain ∧
        (s.eventDoWrite abPost kernel).2.block.unread =
          s.block.unread.drop (kernel.answer.accepted s.block.getSize))

/-- `Write` is patient if and only if there is nothing to write, a hard error, or all has
been sent; or else `send` has not answered `EAGAIN`, but `errno` happens to say so. -/
theorem patient_iff (h : s.block.Layout) :
    (s.eventDoWrite abPost kernel).2.closed =
        (s.closed || decide ((s.eventDoWrite abPost kernel).1 = minaError)) ∧
      (s.Patient abPost kernel ↔ s.block.getSize = 0 ∨ kernel.answer = .failed ∨
        kernel.answer.accepted s.block.getSize = s.block.getSize ∨
          (kernel.answer ≠ .again ∧ (kernel.left = .eagain ∨ kernel.left = .eintr))) := by
  refine ⟨closed_eventDoWrite, ?_⟩
  rcases Decidable.em (s.block.getSize = 0) with hzero | hne
  · have hok : (s.eventDoWrite abPost kernel).1 = minaOk := by
      unfold eventDoWrite
      rw [if_pos hzero]
    refine iff_of_true ⟨fun herror => ?_, fun hne => absurd hzero hne⟩ (.inl hzero)
    rw [hok] at herror
    exact absurd herror (by decide)
  rcases Decidable.em (kernel.answer = .failed) with hfailed | hfailed
  · refine iff_of_true ⟨fun _ => ⟨hne, hfailed⟩, fun _ _ hshort => ?_⟩ (.inr (.inl hfailed))
    rw [hfailed] at hshort
    simp at hshort
  rcases Decidable.em (kernel.answer = .again) with hagain | hagain
  · have herror := eventDoWrite_refused abPost h hne (.inl hagain)
    refine iff_of_false (fun hpatient => hfailed (hpatient.1 herror).2) ?_
    rintro (hzero | hfail | hall | ⟨hwait, -⟩)
    · exact hne hzero
    · exact hfailed hfail
    · rw [hagain] at hall
      exact hne hall.symm
    · exact hwait hagain
  obtain ⟨hall, hshort⟩ := eventDoWrite_accepted abPost h hne hagain hfailed
  rcases Nat.lt_or_ge (kernel.answer.accepted s.block.getSize) s.block.getSize with hless | hge
  · obtain ⟨hresult, hkept⟩ := hshort hless
    rcases Decidable.em (kernel.left = .eagain ∨ kernel.left = .eintr) with hwait | hwait
    · rw [if_pos hwait] at hresult
      refine iff_of_true ⟨fun herror => ?_, fun _ _ _ => ⟨hresult, hkept⟩⟩
        (.inr (.inr (.inr ⟨hagain, hwait⟩)))
      rw [hresult] at herror
      exact absurd herror (by decide)
    · rw [if_neg hwait] at hresult
      refine iff_of_false (fun hpatient => hfailed (hpatient.1 hresult).2) ?_
      rintro (hzero | hfail | hall | ⟨-, hleft⟩)
      · exact hne hzero
      · exact hfailed hfail
      · exact Nat.ne_of_lt hless hall
      · exact hwait hleft
  · have hfull : kernel.answer.accepted s.block.getSize = s.block.getSize :=
      Nat.le_antisymm (accepted_le _ _) hge
    refine iff_of_true ⟨fun herror => ?_, fun _ hless => absurd hless (Nat.not_lt_of_le hge)⟩
      (.inr (.inr (.inl hfull)))
    rw [hall hfull] at herror
    exact absurd herror (by decide)

/-- A write block of three bytes. -/
def threeLeft : Session := ⟨three, [], true, true, false⟩

/-- `send` takes two of the bytes, and `errno` is `EAGAIN` from before. -/
theorem patient_short : threeLeft.Patient true ⟨.eagain, 0, .room 1⟩ :=
  (patient_iff layout_three).2.mpr (.inr (.inr (.inr ⟨by decide, .inl rfl⟩)))

/-- `send` takes none of the bytes, `EAGAIN`: the session is closed. -/
theorem patient_again : threeLeft.block.Layout ∧ threeLeft.closed = false ∧
    (threeLeft.eventDoWrite true ⟨.other, 0, .again⟩).2.closed = true ∧
    ¬ threeLeft.Patient true ⟨.other, 0, .again⟩ := by
  refine ⟨layout_three, rfl, by decide, fun hpatient => ?_⟩
  exact absurd (hpatient.1 (by decide)).2 (by decide)

end Session

end Netfram

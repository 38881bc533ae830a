-- SUMMARY: Command line options: how the vector of arguments is permuted.
import NetworkEtc.Library.CycleSwaps
import NetworkEtc.Library.Printf

/-!
# `CGetOpt`

Positions in the vector are never negative, and of two that are subtracted the second one is no
larger.
-/

namespace Netfram

open Library Library.Printf

structure CGetOpt where
  miArgc : Nat
  mppcArgv : List (List UInt8)
  miOptInd : Nat
  miNonoptStart : Nat
  miNonoptEnd : Nat
  deriving DecidableEq

namespace CGetOpt

/-- `Gcb` -/
def gcb (aiX aiY : Nat) : Nat := if aiY = 0 then aiX else gcb aiY (aiX % aiY)
termination_by aiY
decreasing_by exact Nat.mod_lt _ (Nat.pos_of_ne_zero ‹_›)

/-- The body of the inner loop of `PermuteArgs`, on the position and the vector. -/
def permuteStep (opt : CGetOpt) (liNnonOpts liNopts liCStart : Nat)
    (s : Nat × List (List UInt8)) : Nat × List (List UInt8) :=
  let liPos := if opt.miNonoptEnd ≤ s.1 then s.1 - liNnonOpts else s.1 + liNopts
  let lpsSwap := s.2.getD liPos []
  (liPos, (s.2.set liPos (s.2.getD liCStart [])).set liCStart lpsSwap)

def permuteArgs (opt : CGetOpt) : CGetOpt :=
  let liOptEnd := opt.miOptInd
  let liNnonOpts := opt.miNonoptEnd - opt.miNonoptStart
  let liNopts := liOptEnd - opt.miNonoptEnd
  let liNcycle := gcb liNnonOpts liNopts
  let liCycleLen := (liOptEnd - opt.miNonoptStart) / liNcycle
  { opt with
    miOptInd := opt.miOptInd - liNnonOpts
    mppcArgv :=
      (List.range liNcycle).foldl (fun argv i =>
        let liCStart := opt.miNonoptEnd + i
        ((opt.permuteStep liNnonOpts liNopts liCStart)^[liCycleLen] (liCStart, argv)).2)
        opt.mppcArgv }

/-- What the loop of `Permute` skips. -/
def isNonoption (arg : List UInt8) : Bool := arg.getD 0 0 ≠ ascii '-' ∨ arg.getD 1 0 = 0

/-- `"--"` -/
def endOfOptions : List UInt8 := [ascii '-', ascii '-']

/-- The start of `Permute`. -/
def permutePending (opt : CGetOpt) : CGetOpt :=
  if opt.miNonoptStart ≠ opt.miNonoptEnd ∧ opt.miNonoptStart ≠ opt.miOptInd then opt.permuteArgs
  else opt

/-- The middle of `Permute`: "Skip over args untill we find the next option." -/
def skipArgs (opt : CGetOpt) : CGetOpt :=
  let args := (opt.mppcArgv.take opt.miArgc).drop opt.miOptInd
  let liOptInd := opt.miOptInd + (args.takeWhile isNonoption).length
  { opt with miNonoptStart := opt.miOptInd, miOptInd := liOptInd, miNonoptEnd := liOptInd }

/-- Behind it: "We found the marker for the end of the options." -/
def passMarker (opt : CGetOpt) : CGetOpt :=
  if opt.miOptInd ≠ opt.miArgc ∧ opt.mppcArgv[opt.miOptInd]? = some endOfOptions then
    let opt : CGetOpt := { opt with miOptInd := opt.miOptInd + 1 }
    if opt.miNonoptStart ≠ opt.miNonoptEnd ∧ opt.miNonoptEnd ≠ opt.miOptInd then opt.permuteArgs
    else opt
  else opt

/-- `Permute`, where `EOF` is -1. -/
def permute (opt : CGetOpt) : Int × CGetOpt :=
  let opt := opt.permutePending.skipArgs.passMarker
  if opt.miOptInd = opt.miArgc then
    if opt.miNonoptStart ≠ opt.miNonoptEnd then (-1, { opt with miOptInd := opt.miNonoptStart })
    else (-1, opt)
  else (0, opt)

end CGetOpt

/-! # The two segments -/

namespace CGetOpt

/-- The arguments in `[miNonoptStart, miNonoptEnd)`. -/
def nonoptions (opt : CGetOpt) : List (List UInt8) :=
  (opt.mppcArgv.take opt.miNonoptEnd).drop opt.miNonoptStart

/-- The arguments in `[miNonoptEnd, miOptInd)`. -/
def options (opt : CGetOpt) : List (List UInt8) :=
  (opt.mppcArgv.take opt.miOptInd).drop opt.miNonoptEnd

/-- Both segments have arguments, and end in the vector. -/
structure Segmented (opt : CGetOpt) : Prop where
  start_lt : opt.miNonoptStart < opt.miNonoptEnd
  end_lt : opt.miNonoptEnd < opt.miOptInd
  inside : opt.miOptInd ≤ opt.mppcArgv.length

/-- The segments have changed places. -/
def exchanged (opt : CGetOpt) : CGetOpt :=
  { opt with
    mppcArgv := opt.mppcArgv.take opt.miNonoptStart ++ opt.options ++ opt.nonoptions ++
      opt.mppcArgv.drop opt.miOptInd
    miOptInd := opt.miNonoptStart + opt.options.length }

theorem gcb_eq (x y : Nat) : gcb x y = x.gcd y := by
  induction y using Nat.strongRecOn generalizing x with
  | ind y ih =>
    rw [gcb]
    split
    · next hzero => rw [hzero, Nat.gcd_zero_right]
    · next hne =>
      rw [ih _ (Nat.mod_lt _ (Nat.pos_of_ne_zero hne)), Nat.gcd_comm y, ← Nat.gcd_rec, Nat.gcd_comm]

/-- The places that the exchange goes through. -/
def nextPlace (opt : CGetOpt) (liPos : Nat) : Nat :=
  if opt.miNonoptEnd ≤ liPos then liPos - (opt.miNonoptEnd - opt.miNonoptStart)
  else liPos + (opt.miOptInd - opt.miNonoptEnd)

variable {opt : CGetOpt} {argv : List (List UInt8)}

theorem Segmented.rotates (h : opt.Segmented) :
    Rotates opt.nextPlace opt.miNonoptStart (opt.miOptInd - opt.miNonoptStart)
      (opt.miOptInd - opt.miNonoptEnd) := by
  obtain ⟨hstart, hend, -⟩ := h
  intro y hy
  unfold nextPlace
  split
  · have hsub : y + (opt.miOptInd - opt.miNonoptEnd) =
        y - (opt.miNonoptEnd - opt.miNonoptStart) + (opt.miOptInd - opt.miNonoptStart) := by omega
    rw [hsub, Nat.add_mod_right, Nat.mod_eq_of_lt (by omega)]
    omega
  · rw [Nat.mod_eq_of_lt (by omega)]
    omega

/-- Where the entries of the vector are, as a memory. -/
def entries (argv : List (List UInt8)) (k : Nat) : Option (List UInt8) := argv[k]?

theorem entries_swap {i j : Nat} (hi : i < argv.length) (hj : j < argv.length) :
    entries ((argv.set i (argv.getD j [])).set j (argv.getD i [])) =
      entries argv ∘ Equiv.swap i j := by
  funext k
  simp only [entries, Function.comp_apply, List.getElem?_set, List.length_set,
    List.getD_eq_getElem?_getD, Equiv.swap_apply_def]
  rw [List.getElem?_eq_getElem hi, List.getElem?_eq_getElem hj]
  by_cases hkj : k = j
  · subst hkj
    by_cases hki : k = i
    · subst hki
      simp [hi]
    · simp [hki, hj, hi]
  · by_cases hki : k = i
    · subst hki
      simp [hi, hj, Ne.symm hkj]
    · simp [hkj, hki, Ne.symm hkj, Ne.symm hki]

/-- In the two segments the inner loop makes the exchanges of a cycle. -/
theorem Segmented.iterate_permuteStep (h : opt.Segmented)
    (hlen : argv.length = opt.mppcArgv.length) {liCStart : Nat}
    (hplace : opt.miNonoptStart ≤ liCStart ∧ liCStart < opt.miOptInd) (n : Nat) :
    ∃ liPos argv', (opt.permuteStep (opt.miNonoptEnd - opt.miNonoptStart)
        (opt.miOptInd - opt.miNonoptEnd) liCStart)^[n] (liCStart, argv) = (liPos, argv') ∧
      argv'.length = opt.mppcArgv.length ∧
      (opt.miNonoptStart ≤ liPos ∧ liPos < opt.miOptInd) ∧
      (swapStep opt.nextPlace liCStart)^[n] (liCStart, entries argv) = (liPos, entries argv') := by
  induction n with
  | zero => exact ⟨liCStart, argv, rfl, hlen, hplace, rfl⟩
  | succ n ih =>
    obtain ⟨liPos, argv', hrun, hlen', hpos, hcycle⟩ := ih
    have hinside := h.inside
    have hnext : opt.miNonoptStart ≤ opt.nextPlace liPos ∧ opt.nextPlace liPos < opt.miOptInd := by
      have hstart := h.start_lt
      unfold nextPlace
      split
      · omega
      · omega
    refine ⟨opt.nextPlace liPos, (argv'.set (opt.nextPlace liPos) (argv'.getD liCStart [])).set
      liCStart (argv'.getD (opt.nextPlace liPos) []), ?_, ?_, hnext, ?_⟩
    · rw [Function.iterate_succ_apply', hrun]
      rfl
    · rw [List.length_set, List.length_set, hlen']
    · rw [Function.iterate_succ_apply', hcycle, swapStep, entries_swap (by omega) (by omega)]

/-- The loops go through one cycle after the other. -/
theorem Segmented.permute_cycles (h : opt.Segmented) (liCycleLen : Nat) {count : Nat}
    (hcount : count ≤ opt.miOptInd - opt.miNonoptEnd) :
    ∃ argv, (List.range count).foldl (fun argv i =>
        ((opt.permuteStep (opt.miNonoptEnd - opt.miNonoptStart) (opt.miOptInd - opt.miNonoptEnd)
          (opt.miNonoptEnd + i))^[liCycleLen] (opt.miNonoptEnd + i, argv)).2) opt.mppcArgv = argv ∧
      argv.length = opt.mppcArgv.length ∧
      entries argv = swapCycles opt.nextPlace (opt.miNonoptEnd + ·) liCycleLen count
        (entries opt.mppcArgv) := by
  induction count with
  | zero => exact ⟨_, rfl, rfl, rfl⟩
  | succ count ih =>
    obtain ⟨argv, hrun, hlen, hentries⟩ := ih (by omega)
    have hstart := h.start_lt
    have hplace : opt.miNonoptStart ≤ opt.miNonoptEnd + count ∧
        opt.miNonoptEnd + count < opt.miOptInd := by omega
    obtain ⟨liPos, argv', hstep, hlen', -, hcycle⟩ :=
      h.iterate_permuteStep hlen hplace liCycleLen
    refine ⟨argv', ?_, hlen', ?_⟩
    · rw [List.range_succ, List.foldl_append, hrun, List.foldl_cons, List.foldl_nil, hstep]
    · rw [swapCycles, List.range_succ, List.foldl_append]
      change _ = ((swapStep opt.nextPlace (opt.miNonoptEnd + count))^[liCycleLen]
        (opt.miNonoptEnd + count, swapCycles opt.nextPlace (opt.miNonoptEnd + ·) liCycleLen count
          (entries opt.mppcArgv))).2
      rw [← hentries, hcycle]

/-- Every entry of the segments moves to its place, and no other does. -/
theorem Segmented.moved (h : opt.Segmented) :
    opt.permuteArgs.mppcArgv.length = opt.mppcArgv.length ∧
    Moved opt.nextPlace {x | opt.miNonoptStart ≤ x ∧ x < opt.miOptInd} (entries opt.mppcArgv)
      (entries opt.permuteArgs.mppcArgv) := by
  have hstart := h.start_lt
  have hend := h.end_lt
  have hall : opt.miNonoptStart + (opt.miOptInd - opt.miNonoptStart) = opt.miOptInd := by omega
  have hgcd : gcb (opt.miNonoptEnd - opt.miNonoptStart) (opt.miOptInd - opt.miNonoptEnd) =
      (opt.miOptInd - opt.miNonoptStart).gcd (opt.miOptInd - opt.miNonoptEnd) := by
    have hsum : opt.miOptInd - opt.miNonoptStart =
        opt.miNonoptEnd - opt.miNonoptStart + (opt.miOptInd - opt.miNonoptEnd) := by omega
    rw [gcb_eq, hsum, Nat.gcd_add_self_left]
  have hle := Nat.gcd_le_right (opt.miOptInd - opt.miNonoptStart)
    (n := opt.miOptInd - opt.miNonoptEnd) (by omega)
  obtain ⟨argv, hrun, hlen, hentries⟩ := h.permute_cycles ((opt.miOptInd - opt.miNonoptStart) /
    (opt.miOptInd - opt.miNonoptStart).gcd (opt.miOptInd - opt.miNonoptEnd)) hle
  have hargv : opt.permuteArgs.mppcArgv = argv := by
    rw [← hrun, ← hgcd]
    rfl
  have hmoved := h.rotates.moved (y := opt.miNonoptEnd - opt.miNonoptStart) (by omega) (by omega)
    (entries opt.mppcArgv)
  have hstarts : (fun i => opt.miNonoptStart + (opt.miNonoptEnd - opt.miNonoptStart + i)) =
      (opt.miNonoptEnd + ·) := by
    funext i
    omega
  rw [hstarts, hall, ← hentries] at hmoved
  rw [hargv]
  exact ⟨hlen, hmoved⟩

theorem Segmented.length_options (h : opt.Segmented) :
    opt.options.length = opt.miOptInd - opt.miNonoptEnd := by
  have hinside := h.inside
  rw [options, List.length_drop, List.length_take]
  omega

theorem Segmented.length_nonoptions (h : opt.Segmented) :
    opt.nonoptions.length = opt.miNonoptEnd - opt.miNonoptStart := by
  have hinside := h.inside
  have hend := h.end_lt
  rw [nonoptions, List.length_drop, List.length_take]
  omega

/-- From where the entries of the exchanged vector are. -/
theorem Segmented.getElem?_exchanged (h : opt.Segmented) (k : Nat) :
    opt.exchanged.mppcArgv[k]? =
      if k < opt.miNonoptStart then opt.mppcArgv[k]?
      else if k < opt.miNonoptStart + (opt.miOptInd - opt.miNonoptEnd) then
        opt.mppcArgv[k + (opt.miNonoptEnd - opt.miNonoptStart)]?
      else if k < opt.miOptInd then opt.mppcArgv[k - (opt.miOptInd - opt.miNonoptEnd)]?
      else opt.mppcArgv[k]? := by
  have hoptions := h.length_options
  have hnonoptions := h.length_nonoptions
  obtain ⟨hstart, hend, hinside⟩ := h
  have hbefore : (opt.mppcArgv.take opt.miNonoptStart).length = opt.miNonoptStart := by
    rw [List.length_take]
    omega
  simp only [exchanged, List.getElem?_append, List.length_append, hbefore, hoptions, hnonoptions]
  split
  · next hlt =>
    split
    · next hlt' =>
      split
      · next hk => rw [List.getElem?_take_of_lt hk]
      · next hk =>
        rw [options, List.getElem?_drop, List.getElem?_take_of_lt (by omega)]
        congr 1
        omega
    · next hge =>
      rw [if_neg (by omega), if_pos (by omega), nonoptions, List.getElem?_drop,
        List.getElem?_take_of_lt (by omega)]
      congr 1
      omega
  · next hge =>
    rw [if_neg (by omega), if_neg (by omega), if_neg (by omega), List.getElem?_drop]
    congr 1
    omega

/-- Each entry of the exchanged vector is one that has moved to it. -/
theorem Segmented.exchanged_of_moved (h : opt.Segmented)
    (hmoved : Moved opt.nextPlace {x | opt.miNonoptStart ≤ x ∧ x < opt.miOptInd}
      (entries opt.mppcArgv) (entries argv)) :
    argv = opt.exchanged.mppcArgv := by
  have hstart := h.start_lt
  have hend := h.end_lt
  apply List.ext_getElem?
  intro k
  rw [h.getElem?_exchanged]
  split
  · next hlt => exact hmoved.stays k fun hk => absurd hk.1 (by omega)
  · next hge =>
    split
    · next hlt =>
      have hnext : opt.nextPlace (k + (opt.miNonoptEnd - opt.miNonoptStart)) = k := by
        rw [nextPlace, if_pos (by omega), Nat.add_sub_cancel]
      have hentry := hmoved.moved (k + (opt.miNonoptEnd - opt.miNonoptStart))
        ⟨by omega, by omega⟩
      rwa [hnext] at hentry
    · next hge' =>
      split
      · next hlt =>
        have hnext : opt.nextPlace (k - (opt.miOptInd - opt.miNonoptEnd)) = k := by
          rw [nextPlace, if_neg (by omega), Nat.sub_add_cancel (by omega)]
        have hentry := hmoved.moved (k - (opt.miOptInd - opt.miNonoptEnd)) ⟨by omega, by omega⟩
        rwa [hnext] at hentry
      · next hbehind => exact hmoved.stays k fun hk => absurd hk.2 hbehind

/-- `PermuteArgs` exchanges the two segments, and no other entry is changed. -/
theorem permuteArgs_eq (h : opt.Segmented) : opt.permuteArgs = opt.exchanged := by
  have hargv := h.exchanged_of_moved h.moved.2
  have hind : opt.miOptInd - (opt.miNonoptEnd - opt.miNonoptStart) =
      opt.miNonoptStart + opt.options.length := by
    have hstart := h.start_lt
    have hend := h.end_lt
    rw [h.length_options]
    omega
  have hother : opt.permuteArgs = { opt with
      mppcArgv := opt.permuteArgs.mppcArgv
      miOptInd := opt.miOptInd - (opt.miNonoptEnd - opt.miNonoptStart) } := rfl
  rw [hother, hargv, hind]
  rfl

/-- `prog x y -a`, with `-a` read. -/
def oneOption : CGetOpt :=
  ⟨4, ["prog", "x", "y", "-a"].map fun arg => arg.toList.map ascii, 4, 1, 3⟩

theorem permuteArgs_oneOption : oneOption.permuteArgs.mppcArgv =
    (["prog", "-a", "x", "y"].map fun arg => arg.toList.map ascii) ∧
      oneOption.permuteArgs.miOptInd = 2 := by
  rw [permuteArgs_eq ⟨by decide, by decide, by decide⟩]
  exact ⟨rfl, rfl⟩

/-! # `Permute` -/

theorem take_append_segment {a b : Nat} (h : a ≤ b) :
    argv.take a ++ (argv.take b).drop a = argv.take b := by
  have htake : (argv.take b).take a = argv.take a := by rw [List.take_take, min_eq_left h]
  rw [← htake, List.take_append_drop]

theorem Segmented.exchanged_perm (h : opt.Segmented) :
    opt.exchanged.mppcArgv.Perm opt.mppcArgv := by
  have hsplit : opt.mppcArgv.take opt.miNonoptStart ++ (opt.nonoptions ++ opt.options) ++
      opt.mppcArgv.drop opt.miOptInd = opt.mppcArgv := by
    rw [nonoptions, options, ← List.append_assoc, take_append_segment h.start_lt.le,
      take_append_segment h.end_lt.le, List.take_append_drop]
  have hperm : opt.exchanged.mppcArgv.Perm (opt.mppcArgv.take opt.miNonoptStart ++
      (opt.nonoptions ++ opt.options) ++ opt.mppcArgv.drop opt.miOptInd) := by
    apply List.Perm.append_right
    rw [List.append_assoc]
    exact List.perm_append_comm.append_left _
  rwa [hsplit] at hperm

/-- Arguments that are no options have been skipped, and what has been read since are options,
or the vector has come to its end. -/
structure Ready (opt : CGetOpt) : Prop where
  length : opt.mppcArgv.length = opt.miArgc
  start_le : opt.miNonoptStart ≤ opt.miNonoptEnd
  read : opt.miNonoptStart = opt.miNonoptEnd ∨ opt.miNonoptStart = opt.miOptInd ∨
    opt.miNonoptEnd < opt.miOptInd
  inside : opt.miOptInd ≤ opt.miArgc

/-- Arguments change places only. -/
structure Permuted (opt opt' : CGetOpt) : Prop where
  perm : opt'.mppcArgv.Perm opt.mppcArgv
  argc : opt'.miArgc = opt.miArgc
  length : opt'.mppcArgv.length = opt'.miArgc
  inside : opt'.miOptInd ≤ opt'.miArgc

theorem Segmented.permuted (h : opt.Segmented) (hlength : opt.mppcArgv.length = opt.miArgc) :
    opt.Permuted opt.permuteArgs := by
  have hperm := h.exchanged_perm
  have hoptions := h.length_options
  obtain ⟨hstart, hend, hinside⟩ := h
  rw [permuteArgs_eq ⟨hstart, hend, hinside⟩]
  refine ⟨hperm, rfl, hperm.length_eq.trans hlength, ?_⟩
  simp only [exchanged]
  omega

theorem Ready.permutePending (h : opt.Ready) : opt.Permuted opt.permutePending := by
  obtain ⟨hlength, hle, hread, hinside⟩ := h
  unfold CGetOpt.permutePending
  split
  · next hcall => exact Segmented.permuted ⟨by omega, by omega, by omega⟩ hlength
  · exact ⟨List.Perm.refl _, rfl, hlength, hinside⟩

theorem skipArgs_inside (hlength : opt.mppcArgv.length = opt.miArgc)
    (hinside : opt.miOptInd ≤ opt.miArgc) : opt.skipArgs.miOptInd ≤ opt.miArgc := by
  have hargs := (List.takeWhile_prefix
    (l := (opt.mppcArgv.take opt.miArgc).drop opt.miOptInd) isNonoption).length_le
  rw [List.length_drop, List.length_take] at hargs
  simp only [skipArgs]
  omega

theorem passMarker_permuted (hlength : opt.mppcArgv.length = opt.miArgc)
    (hle : opt.miNonoptStart ≤ opt.miNonoptEnd) (hend : opt.miNonoptEnd = opt.miOptInd)
    (hinside : opt.miOptInd ≤ opt.miArgc) : opt.Permuted opt.passMarker := by
  unfold passMarker
  split
  · next hmarker =>
    simp only
    split
    · next hcall =>
      have hsegmented : CGetOpt.Segmented { opt with miOptInd := opt.miOptInd + 1 } :=
        ⟨lt_of_le_of_ne hle hcall.1, by simp only; omega, by simp only; omega⟩
      obtain ⟨hperm, hargc, hlen, hind⟩ := hsegmented.permuted hlength
      exact ⟨hperm, hargc, hlen, hind⟩
    · refine ⟨List.Perm.refl _, rfl, hlength, ?_⟩
      simp only
      omega
  · exact ⟨List.Perm.refl _, rfl, hlength, hinside⟩

/-- `Permute` exchanges nothing but two segments, and loses no argument. -/
theorem Ready.permute_permuted (h : opt.Ready) : opt.permute.2.mppcArgv.Perm opt.mppcArgv := by
  have hpending := h.permutePending
  have hskip := skipArgs_inside hpending.length hpending.inside
  have hmarker : opt.permutePending.skipArgs.Permuted opt.permutePending.skipArgs.passMarker :=
    passMarker_permuted hpending.length (Nat.le_add_right ..) rfl hskip
  have hperm := hmarker.perm.trans hpending.perm
  unfold permute
  simp only
  split
  · split
    · exact hperm
    · exact hperm
  · exact hperm

end CGetOpt

end Netfram

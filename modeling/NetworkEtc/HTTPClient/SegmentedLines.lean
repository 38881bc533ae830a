-- SUMMARY: A response in two reads, the first of which ends in a header line.
import NetworkEtc.HTTPClient.Segments

/-!
# A read that ends in a header line

The parser has put a zero behind the name when the value is cut, and it does not take it back.
-/

namespace HTTPClient

open Library Library.Printf Netfram CIMFHeader CHttpHandler

namespace Response

variable {r : Response} {raw : HttpResponse} {fresh : Fresh} {memory : List UInt8} {k : Nat}

/-- A position in some texts is behind the start of one of them, and not behind its end. -/
theorem exists_split {α : Type} {f : α → List UInt8} {l : List α} {i : Nat} (hpos : 0 < i)
    (hi : i ≤ (l.flatMap f).length) : ∃ before x after j, l = before ++ x :: after ∧
      i = (before.flatMap f).length + j ∧ 0 < j ∧ j ≤ (f x).length := by
  induction l generalizing i with
  | nil =>
    rw [List.flatMap_nil, List.length_nil] at hi
    omega
  | cons x l ih =>
    rw [List.flatMap_cons, List.length_append] at hi
    rcases Nat.lt_or_ge (f x).length i with hlt | hge
    · obtain ⟨before, y, after, j, rfl, hj, hjpos, hjle⟩ := ih (i := i - (f x).length)
        (by omega) (by omega)
      refine ⟨x :: before, y, after, j, rfl, ?_, hjpos, hjle⟩
      rw [List.flatMap_cons, List.length_append]
      omega
    · exact ⟨[], x, l, i, rfl, by simp, hpos, hge⟩

/-- Without room for two bytes nothing is found behind the header lines. -/
theorem parseBody_short (header : CIMFHeader) (fresh : Fresh) (memory : List UInt8) {len : Int}
    (offs : Nat) {p : Nat} (hstate : header.meChunkFinished = .header) (hshort : len - p < 2) :
    ∃ header',
      header.parseBody fresh memory 0 len offs p = some ((p : Int), header', memory) ∧
      header'.chunkFinished = false := by
  have hskip : skipCrlf memory (some p) (len - p) = none := scanFrom_short hshort
  unfold parseBody
  split
  · exact ⟨header, by simp, by rw [chunkFinished, hstate]; rfl⟩
  · split
    · refine ⟨{ header with meChunkFinished := .chunk }, ?_, rfl⟩
      rw [parseChunked, chunkLoop]
      simp [hskip]
    · exact ⟨header, by simp, by rw [chunkFinished, hstate]; rfl⟩

/-- Where no size line is, nothing is found in a body. -/
theorem parseBody_stop {header : CIMFHeader} {pre rest : List UInt8} {lines : List Line} {len : Int}
    {p : Nat} (h : Tabled header pre lines)
    (hmemory : memory = pre ++ (lines.flatMap Line.parsed ++ rest)) (fresh : Fresh) (offs : Nat)
    (hskip : 2 ≤ len - p → skipCrlf memory (some p) (len - p) = some p)
    (hseek : announced lines = true → seekCrlf memory (some p) (len - p) = none) :
    header.parseBody fresh memory 0 len offs p =
      some ((p : Int), if announced lines then { header with meChunkFinished := .chunk } else header,
        memory) := by
  cases hannounced : announced lines with
  | false => exact h.parseBody_plain hmemory hannounced
  | true =>
    rw [h.parseBody_announced hmemory hannounced, parseChunked, Nat.zero_add,
      chunkLoop_stop hskip (hseek hannounced), Option.map_some]
    simp

/-- When the header lines are over, the header table stays. -/
theorem parseFrom_closed {header : CIMFHeader} {len : Int} {offs : Nat}
    {t : Int × CIMFHeader × List UInt8} (hclosed : header.meChunkFinished ≠ .header)
    (h : header.parseFrom fresh memory 0 len offs = some t) :
    t.2.1.miHeaderSize = header.miHeaderSize := by
  rw [parseFrom, parseLines, if_neg hclosed] at h
  exact (parseBody_same h).1.1

section

variable {before after : List Line} {line : Line} {j : Nat}

/-- Where the line behind some lines begins. -/
def lineStart (r : Response) (before : List Line) : Nat :=
  r.status.text.length + (before.flatMap Line.text).length

/-- What the lines in front of the one that the first read ends in have become. -/
def linesBefore (r : Response) (before : List Line) : List UInt8 :=
  r.status.parsed ++ before.flatMap Line.parsed

@[simp] theorem length_linesBefore (r : Response) (before : List Line) :
    (r.linesBefore before).length = r.lineStart before := by
  rw [linesBefore, List.length_append, HTTPClient.length_parsed, Status.length_parsed, lineStart]

theorem lineStart_le (hlines : r.lines = before ++ line :: after) :
    r.lineStart before + line.text.length ≤ r.headEnd := by
  rw [lineStart, headEnd, hlines, List.flatMap_append, List.flatMap_cons]
  simp only [List.length_append]
  omega

theorem length_le_lineStart (r : Response) (before : List Line) :
    r.status.text.length ≤ r.lineStart before := Nat.le_add_right ..

theorem drop_line (hlines : r.lines = before ++ line :: after) (hj : j ≤ line.text.length) :
    r.text.drop (r.lineStart before + j) =
      line.text.drop j ++ (after.flatMap Line.text ++ cr :: lf :: r.body.text) := by
  have htext : r.text = r.status.text ++ (before.flatMap Line.text ++ (line.text ++
      (after.flatMap Line.text ++ cr :: lf :: r.body.text))) := by simp [text, hlines]
  rw [htext, lineStart, Nat.add_assoc, List.drop_length_add_append,
    List.drop_length_add_append, List.drop_append_of_le_length hj]

theorem started_line (hlines : r.lines = before ++ line :: after) (hj : j ≤ line.text.length)
    (memory : List UInt8) : r.started memory (r.lineStart before + j) =
      r.status.parsed ++ (before.flatMap Line.text ++ (line.text.take j ++
        memory.drop (r.lineStart before + j))) := by
  have hbehind : r.lines.flatMap Line.text ++ cr :: lf :: r.body.text = before.flatMap Line.text ++
      (line.text ++ (after.flatMap Line.text ++ cr :: lf :: r.body.text)) := by simp [hlines]
  have hcut : r.lineStart before + j - r.status.text.length =
      (before.flatMap Line.text).length + j := by
    rw [lineStart]
    omega
  rw [started, hbehind, hcut, List.take_length_add_append, List.take_append_of_le_length hj,
    List.append_assoc]

/-- The header after a first read that ends in the line behind `before`. -/
def stopped (r : Response) (raw : HttpResponse) (before : List Line) : CIMFHeader :=
  if announced before then { r.recorded raw before with meChunkFinished := .chunk }
  else r.recorded raw before

/-- What stands behind the status line when the first read ends in a line. -/
theorem exists_first (hr : r.Good) (hlines : r.lines = before ++ line :: after) (hpos : 0 < j)
    (rest : List UInt8) : ∃ c tail, before.flatMap Line.text ++ (line.text.take j ++ rest) = c :: tail ∧
      c ≠ 0 ∧ c ≠ cr ∧ c ≠ lf := by
  obtain ⟨j, rfl⟩ := Nat.exists_eq_add_one_of_ne_zero (Nat.ne_of_gt hpos)
  cases before with
  | nil =>
    obtain ⟨c, name, hname, hc⟩ := (hr.lines line (by simp [hlines])).exists_first
    exact ⟨c, _, by rw [Line.text, hname]; rfl, hc⟩
  | cons first before =>
    obtain ⟨c, name, hname, hc⟩ := (hr.lines first (by simp [hlines])).exists_first
    exact ⟨c, _, by rw [List.flatMap_cons, Line.text, hname]; rfl, hc⟩

section

variable (hr : r.Good) (hfits : r.Fits) (hlines : r.lines = before ++ line :: after) (hpos : 0 < j)
  (hk : r.status.text.length + 2 ≤ r.lineStart before + j)

include hr hfits hlines hpos hk

/-- The lines of the first read, up to the one that it ends in. -/
theorem parseLines_line {memory' : List UInt8} (raw : HttpResponse) (fresh : Fresh)
    (hstop : ∀ fuel header nkv, headerLoop fresh 0 (r.lineStart before + j : Nat) (fuel + 1) header
      (r.linesBefore before ++ (line.text.take j ++ memory.drop (r.lineStart before + j)))
      (r.linesBefore before).length nkv = (header, memory', r.lineStart before, nkv)) :
    raw.begun.parseLines fresh (r.status.parsed ++ (before.flatMap Line.text ++
        (line.text.take j ++ memory.drop (r.lineStart before + j)))) 0
        (r.lineStart before + j : Nat) r.status.text.length =
      some (r.recorded raw before, memory', r.lineStart before) := by
  have hroom : before.length ≤ keyvalBufferSize := by
    refine le_trans ?_ hfits.lines
    rw [hlines, List.length_append]
    exact Nat.le_add_right ..
  obtain ⟨c, tail, hfirst, hc⟩ := exists_first hr hlines hpos
    (memory.drop (r.lineStart before + j))
  apply parseLines_before (fun l hl => hr.lines l (by simp [hlines, hl])) hroom
  · rw [hfirst]
    exact skipCrlf_first hc (by omega)
  · rw [lineStart]
    omega
  · intro fuel header nkv
    have h := hstop fuel header nkv
    rwa [length_linesBefore, linesBefore, List.append_assoc] at h

/-- A first read that ends where a line does is lost. The line feed need not be there. -/
theorem tables_boundary (hj : j ≤ line.text.length) (hend : line.text.length ≤ j + 1)
    (raw : HttpResponse) (fresh : Fresh) (memory : List UInt8) :
    (receiveTwo raw fresh memory (r.text.take (r.lineStart before + j))
      (r.text.drop (r.lineStart before + j))).map tables = none := by
  have hline := hr.lines line (by simp [hlines])
  have htext := r.length_text
  have hle := lineStart_le hlines
  have hlength := line.length_text
  have hvalue := List.length_pos_of_ne_nil hline.value_ne_nil
  have hcount := length_le_length_flatMap (f := Line.text) (by simp [Line.text]) before
  have hstatus : r.lineStart before =
      r.status.text.length + (before.flatMap Line.text).length := rfl
  have hlines' : r.lines.length = before.length + 1 + after.length := by
    rw [hlines, List.length_append, List.length_cons]
    omega
  have hroom := hfits.lines
  obtain ⟨c, tail, hfirst, hc⟩ := exists_first hr hlines hpos
    (memory.drop (r.lineStart before + j))
  have hskip : skipCrlf (r.started memory (r.lineStart before + j))
      (some (0 + r.status.text.length))
      ((r.lineStart before + j : Nat) - r.status.text.length) = some r.status.text.length := by
    rw [started_line hlines hj, hfirst, Nat.zero_add]
    exact skipCrlf_first hc (by omega)
  obtain ⟨rest, hmemory⟩ : ∃ rest, line.text.take j ++ memory.drop (r.lineStart before + j) =
      line.name ++ ascii ':' :: (line.gap ++ (line.value ++ cr :: rest)) := by
    have hsplit : line.text =
        (line.name ++ ascii ':' :: (line.gap ++ (line.value ++ [cr]))) ++ [lf] := by
      simp [Line.text]
    have hcut : (line.name ++ ascii ':' :: (line.gap ++ (line.value ++ [cr]))).length ≤ j := by
      simp only [List.length_append, List.length_cons, List.length_nil]
      omega
    rw [hsplit, List.take_append, List.take_of_length_le hcut]
    exact ⟨[lf].take (j - (line.name ++ ascii ':' :: (line.gap ++ (line.value ++ [cr]))).length) ++
      memory.drop (r.lineStart before + j), by simp⟩
  have hfuel : ((r.lineStart before + j : Nat) : Int).toNat + 1 =
      (r.lineStart before + j - before.length - 1) + 1 + 1 + before.length := by
    rw [Int.toNat_natCast]
    omega
  have hparsed : r.status.parsed ++ (before.flatMap Line.parsed ++ (line.name ++ ascii ':' ::
      (line.gap ++ (line.value ++ cr :: rest)))) =
        r.linesBefore before ++ (line.name ++ ascii ':' :: (line.gap ++ (line.value ++
          cr :: rest))) := by
    rw [linesBefore, List.append_assoc]
  have hlen := length_linesBefore r before
  have hstart : r.status.parsed.length = r.status.text.length := r.status.length_parsed
  obtain ⟨header, memory', nkv, hstate, hloop⟩ : ∃ header memory' nkv,
      header.meChunkFinished = .header ∧
      headerLoop fresh 0 (r.lineStart before + j : Nat)
        (((r.lineStart before + j : Nat) : Int).toNat + 1) raw.begun
        (r.started memory (r.lineStart before + j)) r.status.text.length
        raw.begun.miHeaderSize =
        (header, memory', r.lineStart before + line.text.length, nkv) := by
    rw [started_line hlines hj, hmemory, hfuel, ← hstart, headerLoop_lines
      (fun l hl => hr.lines l (by simp [hlines, hl])) (Nat.zero_le _)
      (by simp only [HttpResponse.begun, CIMFHeader.init]; omega) (by omega),
      hparsed, hstart, show r.status.text.length + (before.flatMap Line.text).length =
        (r.linesBefore before).length from hlen.symm,
      headerLoop_step hline (Nat.zero_le _) (by simp only [HttpResponse.begun, CIMFHeader.init]; omega)
        (by rw [hlen]; omega), hlen, headerLoop_end (by omega)]
    exact ⟨_, _, _, rfl, rfl⟩
  have hshort : ((r.lineStart before + j : Nat) : Int) -
      (r.lineStart before + line.text.length : Nat) < 2 := by omega
  obtain ⟨header', hbody, hfinished⟩ := parseBody_short { header with miHeaderSize := nkv } fresh
    memory' r.status.text.length hstate hshort
  have hheader : raw.begun.parseFrom fresh (r.started memory (r.lineStart before + j)) 0
      (r.lineStart before + j : Nat) r.status.text.length =
        some (((r.lineStart before + line.text.length : Nat) : Int), header', memory') := by
    rw [parseFrom, parseLines_some rfl hskip hloop]
    exact hbody
  exact tables_dropped hr (by omega) (by omega) hheader hfinished (Or.inr (by omega))

omit hr hfits hlines hpos hk in
/-- Nothing ends the name in a first read that ends in it. -/
theorem seekChar_name (hline : line.Good) (hj : j ≤ line.name.length) (behind : List UInt8) :
    seekChar (r.linesBefore before ++ (line.text.take j ++ behind))
      (some (r.linesBefore before).length)
      ((r.lineStart before + j : Nat) - (((r.linesBefore before).length : Nat) - (0 : Nat)))
      (ascii ':') = none := by
  have hlength := length_linesBefore r before
  have htake : line.text.take j = line.name.take j := by
    rw [Line.text, List.take_append_of_le_length hj]
  apply scanFrom_eq_none
  intro q hle hlt _
  have hq : q - (r.linesBefore before).length < (line.text.take j).length := by
    rw [htake, List.length_take_of_le hj]
    omega
  have hname : ∀ c ∈ line.text.take j, c ≠ ascii ':' := fun c hc =>
    (hline.name c (List.mem_of_mem_take (htake ▸ hc))).1
  have hmem := getD_append_mem behind hq
  rw [← List.getD_append_right _ _ _ _ hle] at hmem
  exact decide_eq_true (hname _ hmem)

/-- A first read that ends in a name stops where the line begins. -/
theorem parseFrom_name (hj : j ≤ line.name.length) (memory : List UInt8) (raw : HttpResponse)
    (fresh : Fresh) (hseek : announced before = true →
      seekCrlf (r.linesBefore before ++ (line.text.take j ++ memory.drop (r.lineStart before + j)))
        (some (r.lineStart before)) ((r.lineStart before + j : Nat) - (r.lineStart before : Nat)) =
          none) :
    raw.begun.parseFrom fresh (r.started memory (r.lineStart before + j)) 0
        (r.lineStart before + j : Nat) r.status.text.length =
      some ((r.lineStart before : Int), r.stopped raw before, r.linesBefore before ++
        (line.text.take j ++ memory.drop (r.lineStart before + j))) := by
  have hline := hr.lines line (by simp [hlines])
  have hlength := line.length_text
  have hparse := parseLines_line hr hfits hlines hpos hk raw fresh
    (fun fuel header nkv => (headerLoop_name (seekChar_name hline hj
      (memory.drop (r.lineStart before + j)))).trans (by rw [length_linesBefore]))
  rw [started_line hlines (by omega), parseFrom, hparse]
  have hmemory : r.linesBefore before ++ (line.text.take j ++ memory.drop (r.lineStart before + j)) =
      r.status.parsed ++ (before.flatMap Line.parsed ++ (line.text.take j ++
        memory.drop (r.lineStart before + j))) := List.append_assoc ..
  refine parseBody_stop (r.tabled_recorded raw before) hmemory fresh _ (fun hle => ?_) hseek
  apply skipCrlf_here _ hle
  obtain ⟨j, rfl⟩ := Nat.exists_eq_add_one_of_ne_zero (Nat.ne_of_gt hpos)
  obtain ⟨c, name, hname, hc⟩ := hline.exists_first
  rw [Line.text, hname, List.cons_append, List.take_succ_cons, List.cons_append,
    getD_at (length_linesBefore r before).symm]
  exact hc

omit hpos hk in
/-- The lines of the second read are recorded behind those of the first. -/
theorem parseLines_resume {len : Int} (rest : List UInt8) (raw : HttpResponse) (fresh : Fresh)
    (hlen : (r.headEnd : Int) + 2 ≤ len) :
    (r.recorded raw before).parseLines fresh
        (r.linesBefore before ++ ((line :: after).flatMap Line.text ++ cr :: lf :: rest)) 0 len
        (r.lineStart before) =
      some (r.recorded raw r.lines, r.parsedHead (cr :: lf :: rest), r.headEnd) := by
  have hgood : ∀ l ∈ line :: after, l.Good := fun l hl => hr.lines l (by simp [hlines, hl])
  obtain ⟨c, name, hname, hc⟩ := (hgood line List.mem_cons_self).exists_first
  have hcount := length_le_length_flatMap (f := Line.text) (by simp [Line.text]) (line :: after)
  have hstart := length_linesBefore r before
  have hend : r.headEnd = r.lineStart before + ((line :: after).flatMap Line.text).length := by
    rw [headEnd, lineStart, hlines, List.flatMap_append, List.length_append, Nat.add_assoc]
  have hroom : before.length + (line :: after).length ≤ (r.recorded raw before).miCapHeaderSize := by
    rw [← List.length_append, ← hlines]
    exact hfits.lines
  have hskip : skipCrlf (r.linesBefore before ++ ((line :: after).flatMap Line.text ++
      cr :: lf :: rest)) (some (0 + r.lineStart before)) (len - r.lineStart before) =
        some (r.lineStart before) := by
    rw [Nat.zero_add]
    apply skipCrlf_here _ (by omega)
    rw [List.flatMap_cons, Line.text, hname]
    simpa only [List.cons_append, getD_at hstart.symm] using hc
  have hfuel : len.toNat + 1 = len.toNat - (line :: after).length + 1 + (line :: after).length := by
    omega
  have henter : enter (r.recorded raw before).mpoHeaders before.length (r.lineStart before - 0)
      (line :: after) = (r.recorded raw r.lines).mpoHeaders := by
    simp only [recorded, hlines, enter_append, Nat.zero_add, Nat.sub_zero, Status.length_parsed,
      lineStart]
  have hempty : ∀ fuel header nkv, headerLoop fresh 0 len fuel header (r.linesBefore before ++
      ((line :: after).flatMap Line.parsed ++ cr :: lf :: rest)) r.headEnd nkv =
        (header, r.parsedHead (cr :: lf :: rest), r.headEnd, nkv) := by
    intro fuel header nkv
    have hmemory : r.linesBefore before ++ ((line :: after).flatMap Line.parsed ++
        cr :: lf :: rest) = (r.status.parsed ++ r.lines.flatMap Line.parsed) ++ cr :: lf :: rest := by
      simp [linesBefore, hlines]
    rw [headerLoop_empty hmemory, hmemory, List.append_assoc, parsedHead]
    rw [List.length_append, HTTPClient.length_parsed, Status.length_parsed, headEnd]
  have hloop : headerLoop fresh 0 len (len.toNat + 1) (r.recorded raw before)
      (r.linesBefore before ++ ((line :: after).flatMap Line.text ++ cr :: lf :: rest))
      (r.lineStart before) before.length =
      ({ r.recorded raw before with mpoHeaders := (r.recorded raw r.lines).mpoHeaders },
        r.parsedHead (cr :: lf :: rest), r.headEnd, r.lines.length) := by
    rw [hfuel, ← hstart, headerLoop_lines hgood (Nat.zero_le _) hroom (by rw [hstart]; omega),
      hstart, ← hend, henter, hempty, hlines, List.length_append]
  exact parseLines_some rfl hskip hloop

/-- A response whose first read ends in a name goes on where it stopped. -/
theorem resumed_name (hplain : announced before = false) (hleast : 2 ≤ j) (hj : j ≤ line.name.length)
    (memory : List UInt8) (raw : HttpResponse) (fresh : Fresh) :
    r.Resumed memory (r.lineStart before + j) raw fresh := by
  have hline := hr.lines line (by simp [hlines])
  have hlength := line.length_text
  have hj' : j ≤ line.text.length := by omega
  have htext := r.length_text
  have hle := lineStart_le hlines
  have hstatus := r.status.length_text
  have hstart := length_le_lineStart r before
  have hstop : r.stopped raw before = r.recorded raw before := by
    rw [stopped, if_neg (by rw [hplain]; decide)]
  have hheader := parseFrom_name hr hfits hlines hpos hk hj memory raw fresh
    (fun h => absurd (hplain.symm.trans h) (by decide))
  have htake : line.text.take j = line.name.take j := by
    rw [Line.text, List.take_append_of_le_length hj]
  have hends : ¬ LooksEnded (r.linesBefore before ++ (line.text.take j ++
      memory.drop (r.lineStart before + j))) (r.lineStart before) := by
    intro h
    have hone : 1 < (line.text.take j).length := by
      rw [List.length_take_of_le hj']
      omega
    have hmem := getD_append_mem (memory.drop (r.lineStart before + j)) hone
    have hcr := h.1
    rw [List.getD_append_right _ _ _ _ (by rw [length_linesBefore]; omega), length_linesBefore,
      Nat.add_sub_cancel_left] at hcr
    rw [hcr, htake] at hmem
    exact (hline.name _ (List.mem_of_mem_take hmem)).2.1 rfl
  rw [hstop] at hheader
  have hkept := tables_kept hr (by omega) (by omega) hheader rfl rfl (by omega) (by omega) hends
  have hstore : store (r.linesBefore before ++ (line.text.take j ++
      memory.drop (r.lineStart before + j))) (r.lineStart before + j)
        (r.text.drop (r.lineStart before + j)) =
      r.linesBefore before ++ ((line :: after).flatMap Line.text ++ cr :: lf :: (r.body.text ++
        memory.drop r.text.length)) := by
    have hfront : (r.linesBefore before ++ line.text.take j).length = r.lineStart before + j := by
      rw [List.length_append, length_linesBefore, List.length_take_of_le hj']
    rw [← List.append_assoc, store_second hfront (by omega), drop_line hlines hj',
      List.flatMap_cons]
    have hcut : ∀ m, line.text.take j ++ (line.text.drop j ++ m) = line.text ++ m := fun m => by
      rw [← List.append_assoc, List.take_append_drop]
    simp [hcut]
  obtain ⟨ret, header, memory', hbody, hrecorded⟩ := parseBody_recorded hr hfits
    (r.tabled_recorded raw r.lines) rfl rfl fresh (memory.drop r.text.length)
    (r.lineStart before)
  refine ⟨_, ?_, hrecorded⟩
  rw [hkept, hstore, parseFrom, parseLines_resume hr hfits hlines _ raw fresh (by omega)]
  simp only [hbody, Option.map_some]

/-! # A line that is lost -/

omit hr hfits hlines hpos hk in
/-- Behind the name the colon is there, and the end of the line is not: the colon is gone then. -/
theorem nextLine_value (hline : line.Good) (hname : line.name.length < j)
    (hj : j + 2 ≤ line.text.length) (hlf : memory.getD (r.lineStart before + j) 0 ≠ lf) :
    ∃ rest, nextLine (r.linesBefore before ++ (line.text.take j ++
        memory.drop (r.lineStart before + j))) 0 (r.lineStart before + j : Nat)
        (r.linesBefore before).length =
      (r.linesBefore before ++ (line.name ++ 0 :: (rest ++ memory.drop (r.lineStart before + j))),
        none) ∧ line.name.length + 1 + rest.length = j := by
  have hlength := line.length_text
  have hstart := length_linesBefore r before
  obtain ⟨i, rfl⟩ := Nat.exists_eq_add_of_lt hname
  -- what is there of the blanks and the value
  have htake : line.text.take (line.name.length + i + 1) =
      line.name ++ ascii ':' :: (line.gap ++ line.value).take i := by
    have hsplit : line.text = line.name ++ ascii ':' :: (line.gap ++ line.value ++ [cr, lf]) := by
      simp [Line.text]
    rw [hsplit, Nat.add_assoc, List.take_length_add_append, List.take_succ_cons,
      List.take_append_of_le_length (by rw [List.length_append]; omega)]
  have hrest : ((line.gap ++ line.value).take i).length = i :=
    List.length_take_of_le (by rw [List.length_append]; omega)
  refine ⟨(line.gap ++ line.value).take i, ?_, by omega⟩
  have hends : ∀ c ∈ (line.gap ++ line.value).take i, c ≠ cr ∧ c ≠ lf := by
    intro c hc
    rcases List.mem_append.mp (List.mem_of_mem_take hc) with hc | hc
    · exact ⟨(hline.gap c hc).2.1, (hline.gap c hc).2.2.1⟩
    · exact ⟨(hline.value c hc).1, (hline.value c hc).2.1⟩
  generalize (line.gap ++ line.value).take i = rest at htake hrest hends
  rw [htake]
  generalize hbehind : memory.drop (r.lineStart before + (line.name.length + i + 1)) = behind
  have hbehind' : behind.getD 0 0 ≠ lf := by rwa [← hbehind, getD_drop]
  have hcolon : seekChar (r.linesBefore before ++ (line.name ++ ascii ':' :: rest ++ behind))
      (some (r.linesBefore before).length) ((r.lineStart before + (line.name.length + i + 1) : Nat) -
        ((r.linesBefore before).length - (0 : Nat) : Int)) (ascii ':') =
      some ((r.linesBefore before).length + line.name.length) := by
    apply scanFrom_append (a := line.name) (c := ascii ':') (b := rest ++ behind)
    · rw [List.drop_left, List.append_assoc, List.cons_append]
    · intro x hx
      exact ⟨(hline.name x hx).2.2.2, fun y _ => by simpa using (hline.name x hx).1⟩
    · decide
    · simp
    · omega
    · omega
  have hset : (r.linesBefore before ++ (line.name ++ ascii ':' :: rest ++ behind)).set
      ((r.linesBefore before).length + line.name.length) 0 =
        r.linesBefore before ++ (line.name ++ 0 :: (rest ++ behind)) := by
    rw [← List.append_assoc, ← List.append_assoc, List.append_assoc, List.cons_append,
      set_at (List.length_append ..).symm, List.append_assoc]
  unfold nextLine
  simp only [hcolon, hset]
  split
  · rfl
  · next value hvalue =>
    have hle := (scanFrom_eq_some_iff.mp hvalue).2.1
    have hcrlf : seekCrlf (r.linesBefore before ++ (line.name ++ 0 :: (rest ++ behind)))
        (some value) ((r.lineStart before + (line.name.length + i + 1) : Nat) -
          ((value : Int) - (0 : Nat))) = none := by
      apply scanFrom_eq_none
      intro q hq hlt _
      have hsplit : r.linesBefore before ++ (line.name ++ 0 :: (rest ++ behind)) =
          (r.linesBefore before ++ (line.name ++ [0])) ++ (rest ++ behind) := by simp
      have hfront : (r.linesBefore before ++ (line.name ++ [0])).length =
          r.lineStart before + (line.name.length + 1) := by
        rw [List.length_append, hstart, List.length_append, List.length_singleton]
      rw [hsplit]
      generalize r.linesBefore before ++ (line.name ++ [0]) = front at hfront ⊢
      obtain ⟨t, rfl⟩ := Nat.exists_eq_add_of_le (show front.length ≤ q by omega)
      rw [Nat.add_assoc, getD_append_add, getD_append_add]
      exact decide_eq_true (not_ended hends hbehind' (by omega))
    rw [hcrlf]

omit hr hfits hlines hpos hk in
/-- Where a line has lost its colon, none is found, and no size line either. -/
theorem seek_lost (r : Response) (before : List Line) (hline : line.Good) (rest : List UInt8)
    (size : Int) :
    let memory := r.linesBefore before ++ (line.name ++ 0 :: rest)
    seekChar memory (some (r.lineStart before)) size (ascii ':') = none ∧
      seekCrlf memory (some (r.lineStart before)) size = none ∧
      (2 ≤ size → skipCrlf memory (some (r.lineStart before)) size = some (r.lineStart before)) := by
  have hdrop : (r.linesBefore before ++ (line.name ++ 0 :: rest)).drop (r.lineStart before) =
      line.name ++ 0 :: rest := by rw [← length_linesBefore, List.drop_left]
  refine ⟨?_, ?_, fun hle => ?_⟩
  · exact scanFrom_zero hdrop fun x hx y _ => decide_eq_true (hline.name x hx).1
  · refine scanFrom_zero hdrop fun x hx y hy => decide_eq_true ⟨(hline.name x hx).2.1, ?_⟩
    rcases List.mem_append.mp hy with hy | hy
    · exact (hline.name y hy).2.2.1
    · rw [List.mem_singleton.mp hy]
      decide
  · obtain ⟨c, name, hname, hc⟩ := hline.exists_first
    apply skipCrlf_here _ hle
    rw [hname, List.cons_append, getD_at (length_linesBefore r before).symm]
    exact hc

/-- A first read that ends in a value stops where the line begins. -/
theorem parseFrom_value (hname : line.name.length < j) (hj : j + 2 ≤ line.text.length)
    (hlf : memory.getD (r.lineStart before + j) 0 ≠ lf) (raw : HttpResponse) (fresh : Fresh) :
    ∃ rest, raw.begun.parseFrom fresh (r.started memory (r.lineStart before + j)) 0
        (r.lineStart before + j : Nat) r.status.text.length =
      some ((r.lineStart before : Int), r.stopped raw before, r.linesBefore before ++
        (line.name ++ 0 :: (rest ++ memory.drop (r.lineStart before + j)))) ∧
      line.name.length + 1 + rest.length = j := by
  have hline := hr.lines line (by simp [hlines])
  have hstart := length_linesBefore r before
  obtain ⟨rest, hnext, hrest⟩ := nextLine_value hline hname hj hlf
  refine ⟨rest, ?_, hrest⟩
  have hfirst : (r.linesBefore before ++ (line.text.take j ++ memory.drop (r.lineStart before + j))).getD
      (r.linesBefore before).length 0 ≠ cr := by
    obtain ⟨j, rfl⟩ := Nat.exists_eq_add_one_of_ne_zero (Nat.ne_of_gt hpos)
    obtain ⟨c, name, hname, hc⟩ := hline.exists_first
    rw [Line.text, hname, List.cons_append, List.take_succ_cons, List.cons_append, getD_at rfl]
    exact hc.2.1
  have hparse := parseLines_line hr hfits hlines hpos hk raw fresh (fun fuel header nkv => by
    rw [headerLoop_next fresh fuel header nkv (by omega) (fun h => hfirst h.1), hnext, hstart])
  obtain ⟨-, hseek, hskip⟩ := seek_lost r before hline
    (rest ++ memory.drop (r.lineStart before + j)) ((r.lineStart before + j : Nat) - r.lineStart before)
  have hmemory : r.linesBefore before ++ (line.name ++ 0 :: (rest ++
      memory.drop (r.lineStart before + j))) = r.status.parsed ++ (before.flatMap Line.parsed ++
        (line.name ++ 0 :: (rest ++ memory.drop (r.lineStart before + j)))) := List.append_assoc ..
  rw [started_line hlines (by omega), parseFrom, hparse]
  exact parseBody_stop (r.tabled_recorded raw before) hmemory fresh _ hskip fun _ => hseek

omit hfits in
/-- When the first read stops in front of a line that it ends in, the header table gets nothing else:
if it says that chunks are next, if the block seems to hold an empty line, or if the second read gives
nothing. -/
theorem size_stopped {memory' : List UInt8} (hj : j ≤ line.text.length)
    (hheader : raw.begun.parseFrom fresh (r.started memory (r.lineStart before + j)) 0
        (r.lineStart before + j : Nat) r.status.text.length =
      some ((r.lineStart before : Int), r.stopped raw before, memory'))
    (hsecond : ∀ t, ¬ LooksEnded memory' (r.lineStart before) → announced before = false →
      (r.recorded raw before).parseFrom fresh (store memory' (r.lineStart before + j)
        (r.text.drop (r.lineStart before + j))) 0 r.text.length (r.lineStart before) = some t →
      t.2.1.miHeaderSize = before.length)
    {two : StatusLine × CIMFHeader × List UInt8}
    (htwo : (receiveTwo raw fresh memory (r.text.take (r.lineStart before + j))
      (r.text.drop (r.lineStart before + j))).map tables = some two) :
    two.2.1.miHeaderSize = before.length := by
  have htext := r.length_text
  have hle := lineStart_le hlines
  have hstart := length_le_lineStart r before
  have hstatus := r.status.length_text
  have hfinished : (r.stopped raw before).chunkFinished = false := by
    unfold stopped
    split
    · rfl
    · rfl
  have hdata : (r.stopped raw before).mpcData = some 0 := by
    unfold stopped
    split
    · rfl
    · rfl
  have hsize : (r.stopped raw before).miHeaderSize = before.length := by
    unfold stopped
    split
    · rfl
    · rfl
  by_cases hends : LooksEnded memory' (r.lineStart before)
  · rw [tables_content hr (by omega) (by omega) hheader hfinished (by omega) hends] at htwo
    split at htwo
    · cases htwo
      exact hsize
    · cases htwo
  · rw [tables_kept hr (by omega) (by omega) hheader hfinished hdata (by omega) (by omega)
      hends] at htwo
    obtain ⟨t, ht, rfl⟩ := Option.map_eq_some_iff.mp htwo
    cases hannounced : announced before with
    | false =>
      have hstop : r.stopped raw before = r.recorded raw before := by
        rw [stopped, if_neg (by rw [hannounced]; decide)]
      exact hsecond t hends hannounced (hstop ▸ ht)
    | true =>
      have hclosed : (r.stopped raw before).meChunkFinished ≠ .header := by
        rw [stopped, if_pos hannounced]
        exact State.noConfusion
      exact (parseFrom_closed hclosed ht).trans hsize

omit hr hfits hlines hpos hk in
/-- The second read gives nothing to a line that has lost its colon. -/
theorem parseFrom_lost (hline : line.Good) {rest : List UInt8} {len : Int}
    (hlen : 2 ≤ len - r.lineStart before) {t : Int × CIMFHeader × List UInt8}
    (h : (r.recorded raw before).parseFrom fresh (r.linesBefore before ++ (line.name ++ 0 :: rest)) 0
      len (r.lineStart before) = some t) : t.2.1.miHeaderSize = before.length := by
  obtain ⟨-, -, hskip⟩ := seek_lost r before hline rest (len - r.lineStart before)
  obtain ⟨hcolon, -⟩ := seek_lost r before hline rest
    (len - ((r.lineStart before : Int) - (0 : Nat)))
  rw [parseFrom, parseLines_some rfl ((congrArg (skipCrlf _ · _) (by rw [Nat.zero_add])).trans
    (hskip hlen)) (headerLoop_name hcolon)] at h
  exact (parseBody_same h).1.1

/-- Elsewhere in a header line a response cannot be cut. -/
theorem not_segmented_line (hj : j ≤ line.text.length)
    (hcut : ¬ (announced before = false ∧ 2 ≤ j ∧ j ≤ line.name.length)) :
    ¬ r.Segmented (r.lineStart before + j) := by
  intro h
  have hline := hr.lines line (by simp [hlines])
  have hlength := line.length_text
  have htext := r.length_text
  have hle := lineStart_le hlines
  have hstart := length_linesBefore r before
  have hcount : r.lines.length ≠ before.length := by
    rw [hlines, List.length_append, List.length_cons]
    omega
  have hzero : r.zeros.getD (r.lineStart before + j) 0 = 0 := zeros_getD (by omega)
  rcases Nat.lt_or_ge line.text.length (j + 2) with hend | hend
  · -- the line is there, but nothing of the next one
    obtain ⟨two, htwo, -⟩ := h.exists_two hr hfits length_zeros HttpResponse.zeros Fresh.zeros
    rw [tables_boundary hr hfits hlines hpos hk hj (by omega)] at htwo
    cases htwo
  · rcases Nat.lt_or_ge line.name.length j with hname | hname
    · -- the colon is lost
      obtain ⟨two, htwo, hsize, -⟩ := h.exists_two hr hfits length_zeros HttpResponse.zeros
        Fresh.zeros
      have hlf : r.zeros.getD (r.lineStart before + j) 0 ≠ lf := by
        rw [hzero]
        decide
      obtain ⟨rest, hheader, hrest⟩ := parseFrom_value hr hfits hlines hpos hk hname hend hlf
        HttpResponse.zeros Fresh.zeros
      refine hcount (hsize.symm.trans (size_stopped hr hlines hpos hk hj hheader ?_ htwo))
      intro t _ _ ht
      have hfront : (r.linesBefore before ++ (line.name ++ 0 :: rest)).length =
          r.lineStart before + j := by
        simp only [List.length_append, hstart, List.length_cons]
        omega
      have hmemory : ∀ behind, r.linesBefore before ++ (line.name ++ 0 :: (rest ++ behind)) =
          (r.linesBefore before ++ (line.name ++ 0 :: rest)) ++ behind := by simp
      rw [hmemory, store_second hfront (by omega), ← hmemory] at ht
      exact parseFrom_lost hline (by omega) ht
    · cases hannounced : announced before with
      | true =>
        obtain ⟨two, htwo, hsize, -⟩ := h.exists_two hr hfits length_zeros HttpResponse.zeros
          Fresh.zeros
        have hseek : seekCrlf (r.linesBefore before ++ (line.text.take j ++
            r.zeros.drop (r.lineStart before + j))) (some (r.lineStart before))
            ((r.lineStart before + j : Nat) - (r.lineStart before : Nat)) = none := by
          have hlt : r.lineStart before + j < r.zeros.length := by
            have hzeros := r.length_zeros
            omega
          have hbehind : r.zeros.drop (r.lineStart before + j) =
              0 :: r.zeros.drop (r.lineStart before + j + 1) := by
            rw [List.drop_eq_getElem_cons hlt, ← List.getD_eq_getElem _ 0 hlt, hzero]
          have hdrop : (r.linesBefore before ++ (line.text.take j ++
              r.zeros.drop (r.lineStart before + j))).drop (r.lineStart before) =
              line.name.take j ++ 0 :: r.zeros.drop (r.lineStart before + j + 1) := by
            rw [← hbehind, ← List.take_append_of_le_length hname, ← Line.text]
            conv_lhs => rw [← hstart, List.drop_left, hstart]
          refine scanFrom_zero hdrop fun x hx y hy => ?_
          have hx := hline.name x (List.mem_of_mem_take hx)
          refine decide_eq_true ⟨hx.2.1, ?_⟩
          rcases List.mem_append.mp hy with hy | hy
          · exact (hline.name y (List.mem_of_mem_take hy)).2.2.1
          · rw [List.mem_singleton.mp hy]
            decide
        have hheader := parseFrom_name hr hfits hlines hpos hk hname r.zeros HttpResponse.zeros
          Fresh.zeros fun _ => hseek
        refine hcount (hsize.symm.trans (size_stopped hr hlines hpos hk hj hheader ?_ htwo))
        intro t _ hplain
        rw [hannounced] at hplain
        cases hplain
      | false =>
        have hone : j = 1 := by
          by_contra hne
          exact hcut ⟨hannounced, by omega, hname⟩
        obtain ⟨two, htwo, hsize, -⟩ := h.exists_two hr hfits
          (r.length_marked (r.lineStart before)) HttpResponse.zeros Fresh.zeros
        have hheader := parseFrom_name hr hfits hlines hpos hk hname (r.marked (r.lineStart before))
          HttpResponse.zeros Fresh.zeros fun h => absurd (hannounced.symm.trans h) (by decide)
        refine hcount (hsize.symm.trans (size_stopped hr hlines hpos hk hj hheader ?_ htwo))
        intro t hends
        subst hone
        have hfront : (r.linesBefore before ++ line.text.take 1).length = r.lineStart before + 1 := by
          rw [List.length_append, hstart, List.length_take_of_le hj]
        refine absurd ?_ hends
        rw [← List.append_assoc]
        exact looksEnded_behind hfront le_rfl (r.looksEnded_marked (r.lineStart before))

end

end

end Response

end HTTPClient

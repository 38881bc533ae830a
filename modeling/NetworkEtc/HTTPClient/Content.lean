-- SUMMARY: A complete response that is parsed at once: where the parser stays.
import Mathlib.Data.Bool.AllAny
import NetworkEtc.HTTPClient.Response

/-!
# The state `CONTENT`

`Parse` looks for the empty line one byte behind where the header lines end.
-/

namespace HTTPClient

open Library Library.Printf Netfram CIMFHeader

namespace Response

/-- A response with a body as long as its lines say. -/
structure Complete (r : Response) (bytes : List UInt8) : Prop where
  good : r.Good
  body : r.body = .plain bytes
  contentLength : ∃ line, r.lines.find? (fun line => line.name.map toLower = contentLengthKey) =
    some line ∧ line.value = Decimal.numeral bytes.length

/-- Whatever new objects and tables hold, and whatever stands behind the response, `Parse` reaches
the end of its body. -/
def ReachesBody (r : Response) : Prop :=
  ∀ (raw : HttpResponse) fresh behind, ∃ response memory,
    raw.init.parse fresh (r.text ++ behind) 0 r.text.length =
      some ((r.text.length : Int), response, memory) ∧
    response.meState = .content

variable {r : Response} {raw : HttpResponse} {fresh : Fresh} {len : Int}

/-- If new tables happen to hold what has been recorded, the header lines are recorded, however many
they are. -/
theorem parseLines_head_fresh (hr : r.Good) (raw : HttpResponse) (rest : List UInt8)
    (hlen : (r.headEnd : Int) + 2 ≤ len) (hfresh : ∀ n i, fresh.keyValues n i =
      enter raw.begun.mpoHeaders 0 r.status.parsed.length r.lines i) :
    ∃ header, raw.begun.parseLines fresh
        (r.status.parsed ++ (r.lines.flatMap Line.text ++ cr :: lf :: rest)) 0 len
        r.status.text.length = some (header, r.parsedHead (cr :: lf :: rest), r.headEnd) ∧
      Tabled header r.status.parsed r.lines := by
  rw [headEnd] at hlen
  push_cast at hlen
  obtain ⟨c, tail, hfirst, hc⟩ := hr.exists_first
  have hlength := r.status.length_parsed
  have hcount := length_le_length_flatMap (f := Line.text) (by simp [Line.text]) r.lines
  have hfuel : len.toNat + 1 = len.toNat - r.lines.length + 1 + r.lines.length := by omega
  have hroom : (r.status.parsed.length : Int) + (r.lines.flatMap Line.text).length ≤
      (0 : Nat) + len := by omega
  have hself : enter (enter raw.begun.mpoHeaders 0 r.status.parsed.length r.lines) 0
      (r.status.parsed.length - 0) r.lines =
        enter raw.begun.mpoHeaders 0 r.status.parsed.length r.lines := enter_self fun _ _ => rfl
  obtain ⟨header, hloop, hdata, hentries⟩ := headerLoop_lines_fresh
    (len.toNat - r.lines.length + 1) raw.begun r.status.parsed (cr :: lf :: rest)
    hr.lines (Nat.zero_le _) hroom hfresh hself fun i hi => absurd hi (Nat.not_lt_zero i)
  have hskip : skipCrlf (r.status.parsed ++ (r.lines.flatMap Line.text ++ cr :: lf :: rest))
      (some (0 + r.status.text.length)) (len - r.status.text.length) =
        some r.status.text.length := by
    rw [hfirst, Nat.zero_add]
    exact skipCrlf_first hc (by omega)
  have hempty : CIMFHeader.headerLoop fresh 0 len (len.toNat - r.lines.length + 1) header
      (r.status.parsed ++ (r.lines.flatMap Line.parsed ++ cr :: lf :: rest))
      (r.status.parsed.length + (r.lines.flatMap Line.text).length) (0 + r.lines.length) =
        (header, r.parsedHead (cr :: lf :: rest), r.headEnd, r.lines.length) := by
    rw [headerLoop_empty (List.append_assoc ..).symm, hlength, Nat.zero_add]
    · rfl
    · rw [List.length_append, HTTPClient.length_parsed]
  rw [← hfuel, hempty, hlength] at hloop
  refine ⟨_, parseLines_some rfl hskip hloop, rfl, hdata, header.mpoHeaders, ?_⟩
  have hentered : ∀ i < 0 + r.lines.length, header.mpoHeaders i =
      enter raw.begun.mpoHeaders 0 r.status.parsed.length r.lines i := by
    intro i hi
    exact hentries i hi
  exact (enter_self hentered).symm

/-- `Parse` stays where the empty line is, in the state `HEADER`. -/
theorem parse_stays {bytes : List UInt8} (hr : r.Good) (hbody : r.body = .plain bytes)
    (raw : HttpResponse) (hfresh : ∀ n i, fresh.keyValues n i =
      enter raw.begun.mpoHeaders 0 r.status.parsed.length r.lines i) :
    ∃ response memory, raw.init.parse fresh r.text 0 r.text.length =
      some ((r.headEnd : Int), response, memory) ∧ response.meState = .header := by
  have hlength := r.length_text
  have hline : lineParse (r.text ++ ([] : List UInt8).drop r.text.length) 0 r.text.length 0 =
      ((r.status.text.length : Int), r.status.line, r.status.parsed ++
        (r.lines.flatMap Line.text ++ cr :: lf :: r.body.text)) := by
    have hle : (r.status.text.length : Int) ≤ r.text.length := by
      rw [hlength, headEnd]
      omega
    rw [← lineParse_status hr.status hle]
    simp [text]
  have hlen : (r.headEnd : Int) + 2 ≤ r.text.length := by omega
  obtain ⟨header, hlines, htable⟩ := parseLines_head_fresh hr raw r.body.text hlen hfresh
  have hheader : raw.begun.parseFrom fresh (r.status.parsed ++ (r.lines.flatMap Line.text ++
      cr :: lf :: r.body.text)) 0 r.text.length r.status.text.length =
        some ((r.headEnd : Int), header, r.parsedHead (cr :: lf :: r.body.text)) := by
    rw [parseFrom, hlines]
    exact htable.parseBody_plain rfl (hr.plain bytes hbody)
  have hparse := CHttpHandler.parse_line hline raw fresh
  rw [List.drop_nil, List.append_nil] at hparse
  have hlf : (r.parsedHead (cr :: lf :: r.body.text)).getD (0 + r.headEnd + 1) 0 ≠ cr := by
    have hget := congrArg (List.getD · 1 0) (r.drop_parsedHead (cr :: lf :: r.body.text))
    simp only [List.getD_eq_getElem?_getD, List.getElem?_drop] at hget ⊢
    rw [Nat.zero_add, hget]
    exact (by decide : lf ≠ cr)
  refine ⟨_, _, hparse.trans (HttpResponse.parseHeader_stays hheader (by omega) (by omega) ?_), rfl⟩
  rw [Int.toNat_natCast]
  exact fun h => hlf h.1

/-- No complete response reaches its body. -/
theorem not_reachesBody {bytes : List UInt8} (hr : r.Complete bytes) : ¬ r.ReachesBody := by
  intro h
  let fresh : Fresh :=
    ⟨fun _ => enter HttpResponse.zeros.begun.mpoHeaders 0 r.status.parsed.length r.lines,
      fun _ _ => ⟨0, 0⟩⟩
  have hfresh : ∀ n i, fresh.keyValues n i =
      enter HttpResponse.zeros.begun.mpoHeaders 0 r.status.parsed.length r.lines i := fun _ _ => rfl
  obtain ⟨response, memory, hparse, hstate⟩ := h .zeros fresh []
  obtain ⟨response', memory', hparse', hstate'⟩ := parse_stays hr.good hr.body .zeros hfresh
  rw [List.append_nil, hparse'] at hparse
  have hresponse : response' = response := congrArg (fun r => r.2.1) (Option.some.inj hparse)
  rw [hresponse, hstate] at hstate'
  cases hstate'

/-- `A 1 O`, with a body of one byte. -/
def oneByte : Response where
  status := ⟨[ascii 'A'], [ascii '1'], [ascii 'O']⟩
  lines := [⟨"content-length".toList.map ascii, [], [ascii '1']⟩]
  body := .plain [ascii 'x']

/-- The parser stays at the empty line, byte 25 of 28. -/
theorem oneByte_stays : ¬ oneByte.ReachesBody := by
  intro h
  obtain ⟨response, memory, hparse, -⟩ := h .zeros .zeros []
  have hret : (HttpResponse.zeros.init.parse .zeros (oneByte.text ++ []) 0 oneByte.text.length).map
      (fun r => r.1) = some 25 := by decide
  rw [hparse] at hret
  have hlength : ((oneByte.text.length : Nat) : Int) = 25 := Option.some.inj hret
  exact absurd hlength (by decide)

theorem not_reachesBody_oneByte : oneByte.Complete [ascii 'x'] ∧ ¬ oneByte.ReachesBody := by
  have hcomplete : oneByte.Complete [ascii 'x'] := by
    refine ⟨⟨⟨List.all_iff_forall_prop.mp rfl, List.all_iff_forall_prop.mp rfl,
      List.all_iff_forall_prop.mp rfl, ⟨_, rfl, by decide⟩, ⟨_, rfl, by decide⟩,
      ⟨_, rfl, by decide⟩⟩, ?_, by decide, ?_, ?_⟩, rfl, _, rfl, ?_⟩
    · intro line hline
      rw [List.mem_singleton.mp hline]
      exact ⟨by decide, List.all_iff_forall_prop.mp rfl, List.all_iff_forall_prop.mp rfl,
        List.all_iff_forall_prop.mp rfl, _, rfl, by decide⟩
    · intro _ _
      decide
    · intro text htext
      cases htext
    · decide
  exact ⟨hcomplete, not_reachesBody hcomplete⟩

end Response

end HTTPClient

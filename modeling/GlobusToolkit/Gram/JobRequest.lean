/-
Job requests of the GRAM protocol (gram/protocol/source/globus_gram_protocol_pack.c): what is packed is unpacked again.
-/
import GlobusToolkit.Gram.Message

namespace Globus

open Lib List

/-! ## The functions -/

/-- `globus_gram_protocol_pack_job_request`: the bytes of the query. -/
def packJobRequest (jobStateMask : Int) (callbackUrl : Option (List Char)) (rsl : List Char) : Option (List Char) := do
  let size := packProtocolVersionLine.format.length + packJobStateMaskLine.format.length +
    packCallbackUrlLine.format.length + callbackUrl.elim 2 List.length + 2 * rsl.length + 16
  let query ← OutBuf.put ⟨size, []⟩ (packProtocolVersionLine.print (printInt gramProtocolVersion) ++
    packJobStateMaskLine.print (printInt jobStateMask) ++
    packCallbackUrlLine.print (callbackUrl.getD "\"\"".toList) ++ "rsl: ".toList)
  let query ← query.put (quoteString rsl)
  let len := query.text.length
  let query ← query.put "\r\n".toList
  return (query.text ++ ['\x00']).take (len + 3)

/-- What `globus_gram_protocol_unpack_job_request` returns. -/
structure JobRequest where
  jobStateMask : Int
  callbackUrl : Option (List Char)
  description : List Char
  deriving DecidableEq

/-- `globus_gram_protocol_unpack_job_request`. -/
def unpackJobRequest (fuel : Nat) (mem : Nat → HashEntry (List Char) GramExtension) (query : List Char) :
    Gram JobRequest := do
  let attributes ← unpackMessage fuel mem query
  let protocolVersion ← getIntAttribute fuel attributes attrProtocolVersion
  failIf (protocolVersion ≠ gramProtocolVersion) .versionMismatch
  let jobStateMask ← getIntAttribute fuel attributes attrJobStateMask
  let callbackUrl ← getStringAttribute fuel attributes attrCallbackUrl
  let description ← getStringAttribute fuel attributes attrRsl
  return ⟨jobStateMask, if callbackUrl = [] then none else some callbackUrl, description⟩

/-! ## The round trip -/

/-- The line of the callback contact: two quotes stand for none. -/
def callbackLine (callbackUrl : Option (List Char)) : GramLine :=
  ⟨attrCallbackUrl, callbackUrl.getD [], callbackUrl.isNone⟩

/-- The lines of a job request. -/
def jobRequestLines (jobStateMask : Int) (callbackUrl : Option (List Char)) (rsl : List Char) : List GramLine :=
  [intLine attrProtocolVersion gramProtocolVersion, intLine attrJobStateMask jobStateMask,
    callbackLine callbackUrl, ⟨attrRsl, rsl, true⟩]

section RoundTrip

variable {jobStateMask : Int} {callbackUrl : Option (List Char)} {rsl : List Char}

theorem print_callbackUrl (callbackUrl : Option (List Char)) :
    packCallbackUrlLine.print (callbackUrl.getD "\"\"".toList) = (callbackLine callbackUrl).text := by
  cases callbackUrl <;> rfl

/-- What is written in front of the value of `rsl`. -/
def jobRequestHead (jobStateMask : Int) (callbackUrl : Option (List Char)) : List Char :=
  packProtocolVersionLine.print (printInt gramProtocolVersion) ++ packJobStateMaskLine.print (printInt jobStateMask) ++
    packCallbackUrlLine.print (callbackUrl.getD "\"\"".toList) ++ "rsl: ".toList

theorem length_jobRequestHead (jobStateMask : Int) (callbackUrl : Option (List Char)) :
    (jobRequestHead jobStateMask callbackUrl).length =
      60 + (printInt jobStateMask).length + callbackUrl.elim 2 List.length := by
  have hcallback : (callbackUrl.getD "\"\"".toList).length = callbackUrl.elim 2 List.length := by
    cases callbackUrl <;> rfl
  have hversion : (printInt gramProtocolVersion).length = 1 := by decide
  have hattrs : attrProtocolVersion.length = 16 ∧ attrJobStateMask.length = 14 ∧ attrCallbackUrl.length = 12 ∧
      "rsl: ".toList.length = 5 := by decide
  unfold jobRequestHead
  rw [length_append, length_append, length_append, PackLine.length_print, PackLine.length_print,
    PackLine.length_print, hcallback, hversion]
  simp only [packProtocolVersionLine, packJobStateMaskLine, packCallbackUrlLine, hattrs]
  omega

theorem jobRequestHead_append (jobStateMask : Int) (callbackUrl : Option (List Char)) (rsl : List Char) :
    jobRequestHead jobStateMask callbackUrl ++ quoteString rsl ++ "\r\n".toList ++ ['\x00'] =
      linesMessage (jobRequestLines jobStateMask callbackUrl rsl) := by
  unfold jobRequestHead
  rw [print_callbackUrl]
  simp [linesMessage, jobRequestLines, intLine, GramLine.text, PackLine.print, packProtocolVersionLine,
    packJobStateMaskLine, attrRsl]

theorem packJobRequest_eq (hlo : -2 ^ 31 ≤ jobStateMask) (hhi : jobStateMask < 2 ^ 31) :
    packJobRequest jobStateMask callbackUrl rsl =
      some (linesMessage (jobRequestLines jobStateMask callbackUrl rsl)) := by
  have hmask := length_printInt_le hlo hhi
  have hhead := length_jobRequestHead jobStateMask callbackUrl
  have hrsl := length_quoteString rsl
  have hescapes := escapes_le rsl
  have hcrlf : "\r\n".toList.length = 2 := rfl
  have hformats : packProtocolVersionLine.format.length = 22 ∧ packJobStateMaskLine.format.length = 20 ∧
      packCallbackUrlLine.format.length = 18 := by decide
  have htext := jobRequestHead_append jobStateMask callbackUrl rsl
  unfold packJobRequest
  change OutBuf.put _ (jobRequestHead jobStateMask callbackUrl) >>= _ = _
  rw [hformats.1, hformats.2.1, hformats.2.2, ← htext]
  rw [OutBuf.put_of_lt (by simp only [length_nil]; omega)]
  simp only [Option.bind_eq_bind, Option.bind_some, nil_append]
  rw [OutBuf.put_of_lt (by simp only; omega), Option.bind_some,
    OutBuf.put_of_lt (by simp only [length_append]; omega), Option.bind_some]
  refine congrArg some (take_of_length_le ?_)
  simp only [length_append, length_singleton, hcrlf]
  omega

theorem jobRequestLines_ok
    (hcallback : ∀ url ∈ callbackUrl, url ≠ [] ∧ '"' ∉ url ∧ '\\' ∉ url ∧ '\r' ∉ url ∧ '\x00' ∉ url)
    (hrsl : '\x00' ∉ rsl) : ∀ l ∈ jobRequestLines jobStateMask callbackUrl rsl, l.Ok := by
  have hline : (callbackLine callbackUrl).Ok := by
    cases callbackUrl with
    | none => exact ⟨standardAttrs_ok _ (by decide), by decide, fun h => by cases h⟩
    | some url =>
      obtain ⟨-, hquote, hbackslash, hcr, hnul⟩ := hcallback url rfl
      exact ⟨standardAttrs_ok attrCallbackUrl (by decide), hnul, fun _ => ⟨hquote, hbackslash, hcr⟩⟩
  intro l hl
  simp only [jobRequestLines, mem_cons, not_mem_nil, or_false] at hl
  rcases hl with rfl | rfl | rfl | rfl
  · exact intLine_ok (by decide) _
  · exact intLine_ok (by decide) _
  · exact hline
  · exact ⟨standardAttrs_ok attrRsl (by decide), hrsl, fun h => by cases h⟩

end RoundTrip

/-- What is packed into a job request is unpacked again. -/
theorem jobRequest_roundTrip {jobStateMask : Int} (hmask : -2 ^ 31 ≤ jobStateMask ∧ jobStateMask < 2 ^ 31)
    {callbackUrl : Option (List Char)}
    (hcallback : ∀ url ∈ callbackUrl, url ≠ [] ∧ '"' ∉ url ∧ '\\' ∉ url ∧ '\r' ∉ url ∧ '\x00' ∉ url)
    {rsl : List Char} (hrsl : '\x00' ∉ rsl) :
    ∃ query, packJobRequest jobStateMask callbackUrl rsl = some query ∧
      ∀ fuel mem, 4 < fuel → unpackJobRequest fuel mem query = pure ⟨jobStateMask, callbackUrl, rsl⟩ := by
  refine ⟨_, packJobRequest_eq hmask.1 hmask.2, fun fuel mem hfuel => ?_⟩
  obtain ⟨table, hunpack, hholds⟩ := unpackMessage_lines (jobRequestLines_ok hcallback hrsl) mem hfuel
  set es := (jobRequestLines jobStateMask callbackUrl rsl).map GramLine.extension with hes
  have hnodup : (es.map GramExtension.attr).Nodup :=
    (by decide : [attrProtocolVersion, attrJobStateMask, attrCallbackUrl, attrRsl].Nodup)
  have hmaps : table.Maps fuel es := hholds.maps hfuel.le hnodup
  have hversion : ⟨attrProtocolVersion, printInt gramProtocolVersion⟩ ∈ es := .head _
  have hstate : ⟨attrJobStateMask, printInt jobStateMask⟩ ∈ es := .tail _ (.head _)
  have hurl : ⟨attrCallbackUrl, callbackUrl.getD []⟩ ∈ es := .tail _ (.tail _ (.head _))
  have hdescription : ⟨attrRsl, rsl⟩ ∈ es := .tail _ (.tail _ (.tail _ (.head _)))
  unfold unpackJobRequest
  rw [hunpack, pure_bind, hmaps.getIntAttribute hversion (by decide) (by decide), pure_bind,
    failIf_of_not (by simp), pure_bind, hmaps.getIntAttribute hstate hmask.1 hmask.2, pure_bind,
    hmaps.getStringAttribute hurl, pure_bind, hmaps.getStringAttribute hdescription,
    pure_bind]
  cases callbackUrl with
  | none => rfl
  | some url => rw [Option.getD_some, if_neg (hcallback url rfl).1]

theorem jobRequest_roundTrip_quotes :
    ∃ query, packJobRequest (-1) (some "https://h:1/".toList) "&(a=\"\\\r\nrsl: \")".toList = some query ∧
      ∀ fuel mem, 4 < fuel → unpackJobRequest fuel mem query =
        pure ⟨-1, some "https://h:1/".toList, "&(a=\"\\\r\nrsl: \")".toList⟩ :=
  jobRequest_roundTrip (by decide) (fun url hurl => by cases hurl; decide) (by decide)

end Globus

import MuduoServer.Http.Framing

namespace MuduoServer

namespace Peer

/-- A client takes no offence at an empty line in front of a message. -/
def skipLine (text : Bytes) : Bytes := if text.take 2 = CRLF then text.drop 2 else text

/-- The messages that answer `n` requests on one connection. -/
def readReplies : Nat → Bytes → Option (List Message × Bytes)
  | 0, text => some ([], text)
  | n + 1, text => do
    let (m, text) ← readMessage contentLength (skipLine text)
    let (ms, text) ← readReplies n text
    some (m :: ms, text)

theorem skipLine_lead {lead text : Bytes} (hlead : lead = [] ∨ lead = CRLF)
    (hstart : text.take 2 ≠ CRLF) : skipLine (lead ++ text) = text := by
  rcases hlead with rfl | rfl
  · rw [List.nil_append, skipLine, if_neg hstart]
  · rw [skipLine, show (CRLF ++ text).take 2 = CRLF from rfl, if_pos rfl]
    rfl

end Peer

namespace HTTPResponse

/-- A response with a body that is told apart from what follows, as long as the connection is
open. -/
structure Readable (r : HTTPResponse) : Prop where
  clean : r.Clean
  plain : r.Plain
  body : ∃ b, r.body = some b ∧ b.Wf
  status : r.status ≠ .noContent
  own : r.headers.lookup (bytes "Content-Length") = none

/-- What a client is to learn from a response. -/
def message (r : HTTPResponse) : Message := ⟨r.status.code, r.fields, r.bodyBytes⟩

theorem getResponse_start (r : HTTPResponse) (t : Bytes) :
    (r.getResponse.toString ++ t).take 2 ≠ CRLF := by
  have hlines : r.lines = (bytes "HTTP/1.1" ++ bytes " " ++ decimal r.status.code ++ bytes " " ++
      statusToString r.status) :: r.lines.tail := by
    simp [lines]
  have hstart : ∃ rest, r.getResponse.toString ++ t = 72 :: 84 :: rest := by
    rw [getResponse_toString, beforeBody, hlines, List.flatMap_cons]
    exact ⟨_, rfl⟩
  obtain ⟨rest, hrest⟩ := hstart
  rw [hrest]
  simp [CRLF, CR]

/-- A response is read, behind an empty line or not; the two bytes at its end are left. -/
theorem Readable.read {r : HTTPResponse} (h : r.Readable) {lead : Bytes}
    (hlead : lead = [] ∨ lead = CRLF) (t : Bytes) :
    Peer.readMessage Peer.contentLength (Peer.skipLine (lead ++ (r.getResponse.toString ++ t))) =
      some (r.message, CRLF ++ t) := by
  obtain ⟨b, hb, hwf⟩ := h.body
  rw [Peer.skipLine_lead hlead (r.getResponse_start t),
    r.readMessage_getResponse h.clean h.plain b hb hwf h.status h.own t, message, bodyBytes, hb]

end HTTPResponse

/-- The responses that follow one another on a connection are read back, each with its status, its
headers and its body. -/
theorem Peer.readReplies_flatMap {rs : List HTTPResponse} (h : ∀ r ∈ rs, r.Readable)
    {lead : Bytes} (hlead : lead = [] ∨ lead = CRLF) :
    ∃ rest, (rest = [] ∨ rest = CRLF) ∧
      readReplies rs.length (lead ++ rs.flatMap fun r => r.getResponse.toString) =
        some (rs.map HTTPResponse.message, rest) := by
  induction rs generalizing lead with
  | nil => exact ⟨lead, hlead, by rw [List.flatMap_nil, List.append_nil]; rfl⟩
  | cons r rs ih =>
    obtain ⟨rest, hrest, hread⟩ := ih (fun r' hr => h r' (List.mem_cons_of_mem _ hr)) (.inr rfl)
    refine ⟨rest, hrest, ?_⟩
    rw [List.flatMap_cons, List.length_cons, readReplies,
      (h r List.mem_cons_self).read hlead, Option.bind_eq_bind, Option.bind_some]
    dsimp only
    rw [hread]
    rfl

end MuduoServer

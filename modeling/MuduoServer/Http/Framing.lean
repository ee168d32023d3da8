import MuduoServer.Http.Response

namespace MuduoServer

/-- A response as the peer reads it. -/
structure Message where
  status : Nat
  headers : List (Bytes × Bytes)
  body : Bytes
  deriving DecidableEq, Repr

namespace Peer

/-- The lines up to a blank line, and what follows it; `line` is read so far of the first one. -/
def readLines (line : Bytes) : Bytes → Option (List Bytes × Bytes)
  | [] => none
  | c :: cs =>
    match cs with
    | d :: rest =>
      if c = CR ∧ d = LF then
        if line = [] then some ([], rest)
        else (readLines [] rest).map fun (ls, rest) => (line :: ls, rest)
      else readLines (line ++ [c]) (d :: rest)
    | [] => none

/-- The status code of a status line. -/
def statusOf (line : Bytes) : Option Nat :=
  if line.take 9 = bytes "HTTP/1.1 " then
    let code := (line.drop 9).takeWhile isdigit
    if code.length = 3 then some (digitsValue 0 code) else none
  else none

/-- The name and the value of a header line. -/
def fieldOf (line : Bytes) : Option (Bytes × Bytes) :=
  if 58 ∈ line then
    some (line.takeWhile (· ≠ 58), ((line.dropWhile (· ≠ 58)).drop 1).dropWhile isblank)
  else none

/-- The length of the body of a message: none for status 204, else its `Content-Length`. -/
def contentLength (status : Nat) (headers : List (Bytes × Bytes)) : Option Nat :=
  if status = 204 then some 0
  else match headers.lookup (bytes "Content-Length") with
    | some v => if isNumeral v then some (digitsValue 0 v) else none
    | none => none

/-- The reader of HTTP/1.1, given how it finds the length of a body. A body without a length ends
with the connection. -/
def readMessage (bodyLength : Nat → List (Bytes × Bytes) → Option Nat) (text : Bytes) :
    Option (Message × Bytes) := do
  let (lines, rest) ← readLines [] text
  let statusLine ← lines.head?
  let status ← statusOf statusLine
  let headers ← lines.tail.mapM fieldOf
  match bodyLength status headers with
  | some n => if n ≤ rest.length then some (⟨status, headers, rest.take n⟩, rest.drop n) else none
  | none => some (⟨status, headers, rest⟩, [])

end Peer

/-- A text without line ends. -/
def IsLine (w : Bytes) : Prop := CR ∉ w ∧ LF ∉ w

namespace Peer

theorem readLines_line (acc w rest : Bytes) (hw : CR ∉ w) (hne : acc ++ w ≠ []) :
    readLines acc (w ++ CRLF ++ rest) =
      (readLines [] rest).map fun (ls, rest) => ((acc ++ w) :: ls, rest) := by
  induction w generalizing acc with
  | nil =>
    rw [List.append_nil] at hne
    simp [CRLF, readLines, hne]
  | cons c w ih =>
    have hc : c ≠ CR := fun h => hw (by simp [h])
    obtain ⟨d, ds, hd⟩ : ∃ d ds, w ++ CRLF ++ rest = d :: ds :=
      List.exists_cons_of_ne_nil (by simp [CRLF])
    have hcons : acc ++ c :: w = acc ++ [c] ++ w := by simp
    rw [hcons, ← ih (acc ++ [c]) (fun h => hw (by simp [h])) (by simp), List.cons_append,
      List.cons_append, hd, readLines]
    simp [hc]

/-- The lines of a head are read back, up to the blank line. -/
theorem readLines_head (ls : List Bytes) (rest : Bytes) (h : ∀ w ∈ ls, CR ∉ w ∧ w ≠ []) :
    readLines [] (ls.flatMap (· ++ CRLF) ++ CRLF ++ rest) = some (ls, rest) := by
  induction ls with
  | nil => simp [CRLF, readLines]
  | cons w ls ih =>
    obtain ⟨hcr, hne⟩ := h w (by simp)
    have hline := readLines_line [] w (ls.flatMap (· ++ CRLF) ++ CRLF ++ rest) hcr (by simpa)
    rw [ih fun v hv => h v (by simp [hv])] at hline
    simpa using hline

end Peer

namespace HTTPResponse

/-- Header names and values without CR and LF. -/
def Clean (r : HTTPResponse) : Prop := ∀ h ∈ r.headers.entries, IsLine h.1 ∧ IsLine h.2

/-- The message, followed by `file` and `t`, is read back as it was meant: its status, its headers
and the body, with exactly `t` left. -/
def ReadBack (bodyLength : Nat → List (Bytes × Bytes) → Option Nat) (r : HTTPResponse)
    (file body t : Bytes) : Prop :=
  ∃ headers, Peer.readMessage bodyLength (r.getResponse.toString ++ file ++ t) =
      some (⟨r.status.code, headers, body⟩, t) ∧
    ∀ h ∈ r.headers.entries, (h.1, h.2) ∈ headers

/-- The framing that a peer needs. A response with a big file is followed by the file, which is its
body; a message on a connection that stays open tells its length. -/
def Framed (bodyLength : Nat → List (Bytes × Bytes) → Option Nat) (r : HTTPResponse)
    (file t : Bytes) : Prop :=
  (if r.bigFileFd < 0 then r.ReadBack bodyLength [] r.bodyBytes t
    else r.ReadBack bodyLength file file t) ∧
  (r.close = false → r.status ≠ .noContent → ∃ v, bytes "Content-Length: " ++ v ∈ r.lines)

theorem isLine_decimal (n : Nat) : IsLine (decimal n) := by
  constructor <;>
    · intro h
      exact absurd (decimal_isdigit h) (by decide)

/-- The lines of the head of a clean response are lines, and none is blank. -/
theorem lines_spec (r : HTTPResponse) (h : r.Clean) : ∀ w ∈ r.lines, CR ∉ w ∧ w ≠ [] := by
  intro w hw
  simp only [lines, List.mem_append, List.mem_cons, List.not_mem_nil, or_false, List.mem_map] at hw
  rcases hw with ((rfl | rfl) | ⟨e, he, rfl⟩) | hw
  · refine ⟨?_, by simp [bytes]⟩
    cases r.status <;> decide
  · cases r.close <;> decide
  · obtain ⟨⟨hk, -⟩, hv, -⟩ := h e he
    refine ⟨?_, by simp [bytes]⟩
    simp only [List.mem_append, hk, hv, or_false, false_or]
    decide
  · cases hb : r.body with
    | none => simp [hb] at hw
    | some b =>
      obtain rfl : w = bytes "Content-Length: " ++ decimal b.readableBytes := by simpa [hb] using hw
      refine ⟨?_, by simp [bytes]⟩
      simp only [List.mem_append, (isLine_decimal _).1, or_false]
      decide

/-- Behind the head of a response stand its body, two bytes more, and what follows. -/
theorem readLines_getResponse (r : HTTPResponse) (h : r.Clean) (x : Bytes) :
    Peer.readLines [] (r.getResponse.toString ++ x) =
      some (r.lines, r.bodyBytes ++ CRLF ++ x) := by
  rw [getResponse_toString, beforeBody, List.append_assoc (_ ++ r.bodyBytes), List.append_assoc _
    r.bodyBytes, Peer.readLines_head _ _ (r.lines_spec h), List.append_assoc]

/-- However the length of the body is found, the two bytes are read as part of the body or are
left. -/
theorem readMessage_rest (bodyLength : Nat → List (Bytes × Bytes) → Option Nat) (r : HTTPResponse)
    (h : r.Clean) (x t : Bytes) (m : Message)
    (hm : Peer.readMessage bodyLength (r.getResponse.toString ++ x) = some (m, t)) :
    m.body ++ t = r.bodyBytes ++ CRLF ++ x := by
  simp only [Peer.readMessage, readLines_getResponse r h, Option.bind_eq_bind,
    Option.bind_some, Option.bind_eq_some_iff] at hm
  obtain ⟨line, -, status, -, headers, -, hm⟩ := hm
  split at hm
  · split_ifs at hm
    cases hm
    exact List.take_append_drop _ _
  · cases hm
    exact List.append_nil _

theorem ReadBack.body_eq {bodyLength : Nat → List (Bytes × Bytes) → Option Nat} {r : HTTPResponse}
    (h : r.Clean) {file body t : Bytes} (hread : r.ReadBack bodyLength file body t) :
    body = r.bodyBytes ++ CRLF ++ file := by
  obtain ⟨headers, hm, -⟩ := hread
  rw [List.append_assoc] at hm
  have hrest := r.readMessage_rest bodyLength h (file ++ t) t _ hm
  rw [← List.append_assoc] at hrest
  exact List.append_cancel_right hrest

/-- No response is framed: `getResponse` ends each with two bytes that belong to no message. -/
theorem response_never_framed (bodyLength : Nat → List (Bytes × Bytes) → Option Nat)
    (r : HTTPResponse) (h : r.Clean) (file t : Bytes) : ¬r.Framed bodyLength file t := by
  intro ⟨hread, _⟩
  split_ifs at hread
  all_goals
    have hlen := congrArg List.length (hread.body_eq h)
    simp only [List.length_append, CRLF, List.length_cons, List.length_nil] at hlen
    omega

/-- `HTTPResponse(false)` with the body `hi`. -/
def hi : HTTPResponse := { new false .ok with body := some (Buffer.default.append (bytes "hi")) }

theorem response_never_framed_hi : ¬hi.Framed Peer.contentLength [] (bytes "HTTP/1.1 200 OK") :=
  response_never_framed Peer.contentLength hi (by simp [Clean, hi, new]) [] _

/-- The peer reads the body of the response, and finds the next one behind an empty line. -/
theorem hi_leaves_crlf :
    Peer.readMessage Peer.contentLength (hi.getResponse.toString ++ bytes "HTTP/1.1 200 OK") =
      some (⟨200, [(bytes "Connection", bytes "keep-alive"), (bytes "Content-Length", bytes "2")],
        bytes "hi"⟩, CRLF ++ bytes "HTTP/1.1 200 OK") ∧
    ¬hi.Framed Peer.contentLength [] (bytes "HTTP/1.1 200 OK") := by
  have hread : Peer.readMessage Peer.contentLength
      (hi.getResponse.toString ++ bytes "HTTP/1.1 200 OK") =
      some (⟨200, [(bytes "Connection", bytes "keep-alive"), (bytes "Content-Length", bytes "2")],
        bytes "hi"⟩, CRLF ++ bytes "HTTP/1.1 200 OK") := by decide +kernel
  refine ⟨hread, ?_⟩
  intro ⟨hback, _⟩
  rw [if_pos (by decide)] at hback
  obtain ⟨headers, hm, -⟩ := hback
  rw [List.append_nil, hread, Option.some.injEq, Prod.mk.injEq] at hm
  exact absurd hm.2 (by decide)

/-- The header lines a peer finds. -/
def fields (r : HTTPResponse) : List (Bytes × Bytes) :=
  (bytes "Connection", if r.close then bytes "close" else bytes "keep-alive") ::
  r.headers.entries.map (fun h => (h.1, h.2)) ++
  match r.body with
    | some b => [(bytes "Content-Length", decimal b.readableBytes)]
    | none => []

/-- Names without a colon, and values that do not begin with a blank. -/
def Plain (r : HTTPResponse) : Prop :=
  ∀ h ∈ r.headers.entries, 58 ∉ h.1 ∧ h.2.dropWhile isblank = h.2

theorem fieldOf_line (k v : Bytes) (hk : 58 ∉ k) (hv : v.dropWhile isblank = v) :
    Peer.fieldOf (k ++ bytes ": " ++ v) = some (k, v) := by
  have hline : k ++ bytes ": " ++ v = k ++ 58 :: 32 :: v := by simp [bytes]
  have hne : ∀ c ∈ k, (c ≠ 58 : Bool) = true := by
    intro c hc
    simpa using fun h : c = 58 => hk (h ▸ hc)
  rw [hline, Peer.fieldOf, if_pos (by simp), List.takeWhile_append_of_pos hne,
    List.dropWhile_append_of_pos hne]
  simp [isblank, hv]

theorem isdigit_not_blank {c : UInt8} (h : isdigit c = true) : isblank c = false := by
  revert h
  cases c with | ofBitVec b => revert b; decide +kernel

theorem decimal_dropWhile (n : Nat) : (decimal n).dropWhile isblank = decimal n := by
  cases hd : decimal n with
  | nil => rfl
  | cons c cs =>
    have hc := isdigit_not_blank (decimal_isdigit (n := n) (c := c) (by simp [hd]))
    simp [hc]

theorem mapM_fieldOf (fs : List (Bytes × Bytes))
    (h : ∀ f ∈ fs, 58 ∉ f.1 ∧ f.2.dropWhile isblank = f.2) :
    (fs.map fun f => f.1 ++ bytes ": " ++ f.2).mapM Peer.fieldOf = some fs := by
  induction fs with
  | nil => rfl
  | cons f fs ih =>
    obtain ⟨hk, hv⟩ := h f (by simp)
    rw [List.map_cons, List.mapM_cons, fieldOf_line f.1 f.2 hk hv,
      ih fun g hg => h g (by simp [hg])]
    rfl

theorem lines_tail (r : HTTPResponse) :
    r.lines.tail = r.fields.map fun f => f.1 ++ bytes ": " ++ f.2 := by
  have hconn : (if r.close then bytes "Connection: close" else bytes "Connection: keep-alive") =
      bytes "Connection" ++ bytes ": " ++
        if r.close then bytes "close" else bytes "keep-alive" := by
    cases r.close <;> decide
  have hlen : bytes "Content-Length: " = bytes "Content-Length" ++ bytes ": " := by decide
  unfold lines fields
  rw [hconn]
  cases r.body with
  | none => simp
  | some b => simp [hlen]

theorem statusOf_line (r : HTTPResponse) :
    r.lines.head?.bind Peer.statusOf = some r.status.code := by
  simp only [lines, List.cons_append, List.head?_cons, Option.bind_some]
  cases r.status <;> decide

/-- What a peer makes of a response with a body: the status, the headers and the body are right,
and the two bytes are left in front of what follows. -/
theorem readMessage_getResponse (r : HTTPResponse) (h : r.Clean) (hp : r.Plain) (b : Buffer)
    (hb : r.body = some b) (hwf : b.Wf) (hstatus : r.status ≠ .noContent)
    (hown : r.headers.lookup (bytes "Content-Length") = none) (t : Bytes) :
    Peer.readMessage Peer.contentLength (r.getResponse.toString ++ t) =
      some (⟨r.status.code, r.fields, b.toString⟩, CRLF ++ t) := by
  have hcode : r.status.code ≠ 204 := by
    revert hstatus
    cases r.status <;> decide
  have hfields : r.lines.tail.mapM Peer.fieldOf = some r.fields := by
    rw [lines_tail]
    apply mapM_fieldOf _
    intro f hf
    simp only [fields, hb, List.cons_append, List.mem_cons, List.mem_append, List.mem_map,
      List.not_mem_nil, or_false] at hf
    rcases hf with rfl | ⟨e, he, rfl⟩ | rfl
    · cases r.close <;> decide
    · exact hp e he
    · exact ⟨show (58 : UInt8) ∉ bytes "Content-Length" by decide, decimal_dropWhile _⟩
  have hlength : Peer.contentLength r.status.code r.fields = some b.toString.length := by
    have hnot : (r.headers.entries.map fun h => (h.1, h.2)).lookup (bytes "Content-Length") =
        none := by
      rw [List.lookup_eq_none_iff]
      intro f hf
      obtain ⟨e, he, rfl⟩ := List.mem_map.mp hf
      rw [AList.lookup_eq_none] at hown
      rw [bne_iff_ne]
      intro hkey
      exact hown (hkey ▸ List.mem_keys_of_mem he)
    have hlookup : r.fields.lookup (bytes "Content-Length") = some (decimal b.readableBytes) := by
      have hconn : (bytes "Content-Length" == bytes "Connection") = false := by decide
      simp only [fields, hb, List.cons_append, List.lookup_cons, hconn, List.lookup_append, hnot,
        Option.none_or]
      simp
    rw [Peer.contentLength, if_neg hcode, hlookup]
    simp only [isNumeral_decimal, if_true, digitsValue_decimal, b.toString_length hwf]
  have hline := r.statusOf_line
  rw [Option.bind_eq_some_iff] at hline
  obtain ⟨line, hhead, hcodeOf⟩ := hline
  simp only [Peer.readMessage, r.readLines_getResponse h, Option.bind_eq_bind, Option.bind_some,
    hhead, hcodeOf, hfields, hlength]
  have hbytes : r.bodyBytes = b.toString := by rw [bodyBytes, hb]
  rw [hbytes, if_pos (by simp), List.append_assoc, List.take_left, List.drop_left]

end HTTPResponse

end MuduoServer

import MuduoServer.Http.HeadScan
import MuduoServer.Http.ParseBody

namespace MuduoServer

open HTTPContext

/-- The number of body bytes a head announces: the value of a `Content-Length` that is a decimal
numeral up to `INT_MAX`, and none otherwise. -/
def HTTPRequest.announced (q : HTTPRequest) : Nat :=
  match q.headers.lookup (bytes "Content-Length") with
  | some v => if isNumeral v ∧ digitsValue 0 v < 2^31 then digitsValue 0 v else 0
  | none => 0

/-- A well-formed request, short enough to be held by a `std::string`. -/
structure WireRequest where
  head : RequestHead
  body : Bytes
  framed : body.length = head.request.announced
  fits : (head.bytes ++ body).length < 2^63

namespace WireRequest

def bytes (r : WireRequest) : Bytes := r.head.bytes ++ r.body

/-- The request that is sent. -/
def request (r : WireRequest) : HTTPRequest := r.head.request.appendBody r.body

/-- `atoi` reads the length of the body from the `Content-Length` value, if there is one. -/
def LengthRead (r : WireRequest) : Prop :=
  r.head.request.hasLength → r.head.request.declared = r.body.length

instance (r : WireRequest) : Decidable r.LengthRead := inferInstanceAs (Decidable (_ → _))

end WireRequest

/-- `GET / HTTP/1.1` and header lines. -/
def getHead (headers : List HeaderLine) : RequestHead where
  lead := []
  method := bytes "GET"
  blank1 := 32
  url := []
  params := []
  blank2 := 32
  protocol := bytes "HTTP"
  major := 49
  minor := bytes ".1"
  headers := headers
  lead_ok := by decide +kernel
  method_ne := by decide
  method_ok := by decide +kernel
  blank1_ok := by decide
  url_ok := by decide +kernel
  blank2_ok := by decide
  protocol_ne := by decide
  protocol_ok := by decide +kernel
  major_ok := by decide
  minor_ok := by decide +kernel

def lengthLine (value : Bytes) (h : CR ∉ value) : HeaderLine :=
  ⟨bytes "Content-Length", 32, value, by decide, by decide +kernel, by decide, by decide, h⟩

/-- A request without header lines. -/
def WireRequest.bare : WireRequest := ⟨getHead [], [], by decide, by decide⟩

/-- A request with an empty body, and ones with five and thirteen bytes. -/
def WireRequest.empty : WireRequest :=
  ⟨getHead [lengthLine (MuduoServer.bytes "0") (by decide)], [], by decide, by decide⟩

def WireRequest.hello : WireRequest :=
  ⟨getHead [lengthLine (MuduoServer.bytes "5") (by decide)], MuduoServer.bytes "hello",
    by decide, by decide⟩

def WireRequest.helloWorld : WireRequest :=
  ⟨getHead [lengthLine (MuduoServer.bytes "13") (by decide)], MuduoServer.bytes "hello, world!",
    by decide, by decide⟩

theorem HTTPRequest.declared_of_announced {q : HTTPRequest} (h : q.announced ≠ 0) :
    q.hasLength ∧ q.declared = q.announced := by
  unfold announced at h ⊢
  unfold hasLength declared getHeaderByKey
  cases hv : q.headers.lookup (MuduoServer.bytes "Content-Length") with
  | none => simp [hv] at h
  | some v =>
    simp only [hv] at h ⊢
    split_ifs at h ⊢ with hnum
    · exact ⟨by simp, atoi_numeral v hnum.1 hnum.2⟩
    · exact absurd rfl h

theorem HTTPRequest.announced_lt (q : HTTPRequest) : q.announced < 2^31 := by
  rw [announced]
  split
  · split_ifs with hnum
    · exact hnum.2
    · decide
  · decide

theorem atoi_bounds (s : Bytes) : -2^31 ≤ atoi s ∧ atoi s < 2^31 := by
  have hlo := Int.le_bmod (x := strtol s) (m := 2^32) (by decide)
  have hhi := Int.bmod_lt (x := strtol s) (m := 2^32) (by decide)
  rw [atoi]
  omega

theorem HTTPRequest.bodyBytes_eq {q : HTTPRequest} (h : q.hasLength) {n : Nat}
    (hd : q.declared = n) : q.bodyBytes = n := by
  have hb := atoi_bounds (q.getHeaderByKey (MuduoServer.bytes "Content-Length"))
  have hlt : n < sizeTop := by
    rw [declared] at hd
    rw [sizeTop]
    omega
  rw [bodyBytes, if_pos h, hd, toSizeT_natCast n hlt]

theorem HTTPRequest.bodyBytes_eq_zero {q : HTTPRequest} (h : q.hasLength) :
    q.bodyBytes = 0 ↔ q.declared = 0 := by
  have hb := atoi_bounds (q.getHeaderByKey (MuduoServer.bytes "Content-Length"))
  rw [bodyBytes, if_pos h]
  unfold declared toSizeT sizeTop
  omega

namespace RequestHead

theorem bytes_ne (h : RequestHead) : h.bytes ≠ [] := by
  simp [bytes, words]

theorem carried_zero (ws : List Bytes) : carried ws 0 = [] := by
  induction ws with
  | nil => rfl
  | cons w ws ih =>
    rw [carried]
    split_ifs with hlt
    · rfl
    · rwa [Nat.zero_sub]

end RequestHead

/-- Only the line feed of the blank line leads out of the head into the body. -/
theorem Scan.next_body {s : Scan} {c : UInt8} (hs : s.state.inHead)
    (h : (s.next c).state = .body) :
    s.state = .crLfCr ∧ c = LF ∧ (s.next c).request = s.request := by
  have hb : s.state ≠ .body := ParseState.ne_of_inHead hs rfl
  revert h
  rw [Scan.next]
  cases hst : s.state with
  | crLfCr =>
    dsimp only
    split_ifs with hc
    · exact fun _ => ⟨rfl, by simpa using hc, rfl⟩
    · simp [fail]
  | _ =>
    dsimp only
    (try split_ifs) <;> simp_all [keep, mark, cut, fail]

/-- A head ends with the line feed of the blank line, before which its request is built. -/
theorem RequestHead.scan_end (h : RequestHead) :
    ∃ p : Bytes, h.bytes = p ++ [LF] ∧ (Scan.init.feed p).state = .crLfCr ∧
      (Scan.init.feed p).request = h.request := by
  obtain ⟨p, c, hp⟩ : ∃ p c, h.bytes = p ++ [c] :=
    ⟨_, _, (List.dropLast_append_getLast h.bytes_ne).symm⟩
  have hin : (Scan.init.feed p).state.inHead := by
    have ht := (h.scan_take p.length (by simp [hp])).1
    rwa [hp, List.take_left] at ht
  have hnext : (Scan.init.feed p).next c = Scan.between .body h.request := by
    rw [← h.scan, hp, Scan.feed_append]
    rfl
  obtain ⟨hst, rfl, hreq⟩ := Scan.next_body hin (by rw [hnext]; rfl)
  refine ⟨p, hp, hst, ?_⟩
  rw [← hreq, hnext]
  rfl

namespace WireRequest

variable (r : WireRequest)

theorem body_length_lt : r.body.length < 2^31 := r.framed ▸ r.head.request.announced_lt

theorem bytes_length_lt : r.head.bytes.length + r.body.length < 2^63 := by
  have h := r.fits
  rwa [List.length_append] at h

/-- A request with a body has its length in a header line that `atoi` reads. -/
theorem length_of_body (h : r.body ≠ []) :
    r.head.request.hasLength ∧ r.head.request.bodyBytes = r.body.length := by
  have hpos : r.head.request.announced ≠ 0 := by
    rw [← r.framed]
    exact (List.length_pos_iff.mpr h).ne'
  obtain ⟨hlen, hd⟩ := HTTPRequest.declared_of_announced hpos
  rw [← r.framed] at hd
  exact ⟨hlen, HTTPRequest.bodyBytes_eq hlen hd⟩

theorem lengthRead_of_body (h : r.body ≠ []) : r.LengthRead := by
  intro hlen
  have hpos : r.head.request.announced ≠ 0 := by
    rw [← r.framed]
    exact (List.length_pos_iff.mpr h).ne'
  rw [(HTTPRequest.declared_of_announced hpos).2, r.framed]

/-- Without a body the length is read exactly when no byte of a body is awaited. -/
theorem lengthRead_of_no_body (h : r.body = []) :
    r.LengthRead ↔ ¬(r.head.request.hasLength ∧ r.head.request.bodyBytes ≠ 0) := by
  rw [LengthRead]
  rw [h, List.length_nil, Nat.cast_zero]
  by_cases hlen : r.head.request.hasLength
  · simp [hlen, HTTPRequest.bodyBytes_eq_zero hlen]
  · simp [hlen]

end WireRequest

/-- The request in one piece: it is complete if `atoi` reads its length, else a body is awaited. -/
theorem parseRequest_whole (r : WireRequest) {ctx : HTTPContext} (h : Resumes ctx Scan.init)
    {b : Buffer} (hb : b.Wf) (hs : b.toString = r.bytes) :
    ∃ ctx', parseRequest ctx b =
        some (if r.LengthRead then .complete else .body, ctx', b.retrieveAll) ∧
      ctx'.request = r.request := by
  obtain ⟨p, hp, hst, hreq⟩ := r.head.scan_end
  have hlf : b.toString = p ++ LF :: r.body := by rw [hs, WireRequest.bytes, hp]; simp
  by_cases hempty : r.body = []
  · have hwhole : r.request = r.head.request := by
      rw [WireRequest.request, hempty, HTTPRequest.appendBody_nil]
    rw [hwhole]
    by_cases hq : r.head.request.hasLength ∧ r.head.request.bodyBytes ≠ 0
    · rw [if_neg (by rw [r.lengthRead_of_no_body hempty]; exact not_not_intro hq)]
      obtain ⟨ctx', hparse, hin⟩ := parseRequest_awaitBody h hb hlf hst hempty
        (by rw [hreq]; exact hq.1) (by rw [hreq]; exact hq.2)
      exact ⟨ctx', hparse, hin.request.trans hreq⟩
    · rw [if_pos ((r.lengthRead_of_no_body hempty).mpr hq)]
      obtain ⟨ctx', hparse, hreq'⟩ := parseRequest_bodiless h hb hlf hst hempty
        (by rw [hreq]; exact hq)
      exact ⟨ctx', hparse, hreq'.trans hreq⟩
  · have hlt := r.body_length_lt
    rw [if_pos (r.lengthRead_of_body hempty)]
    obtain ⟨ctx', hparse, hreq'⟩ := parseRequest_bodyWhole h hb hlf hst rfl hempty
      (by unfold sizeTop; omega) (by rw [hreq]; exact (r.length_of_body hempty).2)
    exact ⟨ctx', hparse, by rw [hreq', hreq]; rfl⟩

end MuduoServer

import MuduoServer.Http.Recovery
import MuduoServer.Tcp.WriteInterest

namespace MuduoServer

namespace Endpoint

/-- What was done to a connection was done by events. -/
def Acts (e e' : Endpoint) : Prop :=
  ∃ events, Run (fun e event e' => e.handle event = .ok e') e events e'

variable {e e' e'' : Endpoint}

theorem Acts.refl (e : Endpoint) : e.Acts e := ⟨[], .nil e⟩

theorem Acts.snoc (h : e.Acts e') (event : Event) (hs : e'.handle event = .ok e'') :
    e.Acts e'' := by
  obtain ⟨events, hrun⟩ := h
  exact ⟨events ++ [event], .snoc hrun hs⟩

theorem Acts.of_handle (event : Event) (hs : e.handle event = .ok e') : e.Acts e' :=
  (Acts.refl e).snoc event hs

theorem Watched.acts (h : e.Watched ∧ e.Needed) (ha : e.Acts e') : e'.Watched ∧ e'.Needed := by
  obtain ⟨events, hrun⟩ := ha
  exact hrun.preserves (fun e => e.Watched ∧ e.Needed) h
    fun _ _ _ hinv hs => hinv.1.handle hinv.2 hs

end Endpoint

namespace HTTPServer

open Endpoint

variable {files : Nat → Bytes} {onResponse : OnResponse}

/-- A callback set on a response works on the connection through its public functions. -/
def UsesCalls (onResponse : OnResponse) : Prop :=
  ∀ req res res' callback e e', onResponse req res = (res', some callback) →
    callback res' e = .ok e' → e.Acts e'

/-- The bytes of a response: head, body and big file. -/
def responseBytes (files : Nat → Bytes) (res : HTTPResponse) : Bytes :=
  res.getResponse.toString ++
    if res.bigFileFd < 0 then [] else files res.bigFileFd.toNat

/-- The connection at the end of `respond`. -/
def finish (res : HTTPResponse) (e : Endpoint) : Endpoint :=
  if res.close ∧ e.conn.state ≠ .disconnected then e.handleClose else e

/-- The calls that `respond` makes when the server sends the response itself. -/
theorem respond_ok {res : HTTPResponse} {e e' : Endpoint}
    (h : respond files res none e = .ok e') :
    ∃ e1, e.send res.getResponse.toString = .ok e1 ∧
      ((res.bigFileFd < 0 ∧ e' = finish res e1) ∨
        ¬res.bigFileFd < 0 ∧ ∃ e2,
          e1.sendFile ⟨res.bigFileFd.toNat, files res.bigFileFd.toNat⟩ = .ok e2 ∧
            e' = finish res e2) := by
  rw [respond] at h
  obtain ⟨e1, hs, h⟩ := bind_eq_ok.mp h
  refine ⟨e1, hs, ?_⟩
  by_cases hfd : res.bigFileFd < 0
  · rw [if_pos hfd] at h
    cases h
    exact .inl ⟨hfd, rfl⟩
  · rw [if_neg hfd] at h
    obtain ⟨e2, hf, h⟩ := bind_eq_ok.mp h
    cases h
    exact .inr ⟨hfd, e2, hf, rfl⟩

theorem finish_acts (res : HTTPResponse) {e e1 : Endpoint} (h : e.Acts e1) :
    e.Acts (finish res e1) := by
  rw [finish]
  split_ifs
  · exact h.snoc .handleClose rfl
  · exact h

theorem respond_acts {res : HTTPResponse} {e e' : Endpoint}
    (h : respond files res none e = .ok e') : e.Acts e' := by
  obtain ⟨e1, hs, ⟨-, rfl⟩ | ⟨-, e2, hf, rfl⟩⟩ := respond_ok h
  · exact finish_acts res (Acts.of_handle (.call (.send _)) hs)
  · have h1 : e.Acts e1 := Acts.of_handle (.call (.send _)) hs
    exact finish_acts res (h1.snoc (.call (.sendFile _)) hf)

theorem onEndpoint_ok {s s' : Session} {r : Except Endpoint Endpoint}
    (h : s.onEndpoint r = .ok s') : r = .ok s'.endpoint := by
  cases r with
  | error e => cases h
  | ok e =>
    cases h
    rfl

/-- Whatever the parser returned, the server works on the connection by events. -/
theorem dispatch_acts (hcalls : UsesCalls onResponse) {s s' : Session} {st : ParseState}
    (h : dispatch files onResponse s st = .ok s') : s.endpoint.Acts s'.endpoint := by
  have hrefuse : ∀ status, s.onEndpoint (refuse status s.endpoint) = .ok s' →
      s.endpoint.Acts s'.endpoint := fun status hr =>
    Acts.of_handle (.call (.send _)) (onEndpoint_ok hr)
  cases st
  case complete =>
    simp only [dispatch] at h
    have hr := onEndpoint_ok h
    cases hresponse : onResponse s.context.request
        (.new (toLower (s.context.request.getHeaderByKey (bytes "Connection")) = bytes "close") .ok)
        with
    | mk res callback =>
      rw [hresponse] at hr
      cases callback with
      | none => exact respond_acts hr
      | some callback => exact hcalls _ _ _ _ _ _ hresponse hr
  case invalidMethod => exact hrefuse _ h
  case invalidUrl => exact hrefuse _ h
  case invalidProtocol => exact hrefuse _ h
  case invalidHeader => exact hrefuse _ h
  case invalidCrlf => exact hrefuse _ h
  case invalid =>
    have hr := onEndpoint_ok h
    obtain ⟨e1, hs, hr⟩ := bind_eq_ok.mp hr
    have h1 : s.endpoint.Acts e1 := Acts.of_handle (.call (.send _)) hs
    rw [← Except.ok.inj hr]
    split_ifs
    · exact h1
    · exact h1.snoc .handleClose rfl
  all_goals
    cases h
    exact Acts.refl _

/-- The output of the connections of a server is watched. -/
theorem runs_watched (hcalls : UsesCalls onResponse) (w : Workload) (k : List Answer)
    {events : List Event} {s : Session} (hrun : Runs files onResponse (.new w k) events s) :
    s.endpoint.Watched ∧ s.endpoint.Needed := by
  refine hrun.preserves (fun s => s.endpoint.Watched ∧ s.endpoint.Needed)
    (connected_watched w k) ?_
  intro s event s' hinv hs
  cases event with
  | call c =>
    have hr := onEndpoint_ok (Option.some.inj hs)
    exact Watched.acts hinv (Acts.of_handle (.call c) hr)
  | read data =>
    have hread : (s.setInBuffer (s.endpoint.conn.inBuffer.append data)).endpoint.Watched ∧
        (s.setInBuffer (s.endpoint.conn.inBuffer.append data)).endpoint.Needed :=
      ⟨⟨hinv.1.wf, hinv.1.synced, hinv.1.files, hinv.1.writing⟩, hinv.2⟩
    simp only [step, receive, onMessage] at hs
    split_ifs at hs with hopen
    · cases hs
      exact hread
    · obtain ⟨⟨st, ctx, b⟩, -, hd⟩ := Option.map_eq_some_iff.mp hs
      refine Watched.acts ?_ (dispatch_acts hcalls hd)
      exact ⟨⟨hinv.1.wf, hinv.1.synced, hinv.1.files, hinv.1.writing⟩, hinv.2⟩

end HTTPServer

namespace Endpoint

variable {e e' : Endpoint}

theorem takes_le (e : Endpoint) (size : Nat) : e.takes size ≤ size := by
  rw [takes]
  split
  · exact Nat.min_le_right _ _
  · exact Nat.zero_le _

theorem queue_busy (e : Endpoint) {left : Bytes}
    (h : e.conn.channel.isWriting = true ∨ 0 < left.length) :
    (e.queue left).conn.channel.isWriting = true := by
  rw [queue]
  dsimp only [setOutBuffer]
  split_ifs with hpos hw
  · exact hw
  · exact Channel.enableWriting_isWriting _
  · exact h.resolve_right hpos

theorem queue_socket (e : Endpoint) (left : Bytes) : (e.queue left).socket = e.socket := by
  rw [queue]
  dsimp only
  split_ifs <;> rfl

theorem queue_kernel (e : Endpoint) (left : Bytes) : (e.queue left).kernel = e.kernel := by
  rw [queue]
  dsimp only
  split_ifs <;> rfl

theorem queue_nil (e : Endpoint) : e.queue [] = e := rfl

theorem queueFile_socket (e : Endpoint) (f : OpenFile) (sent : Nat) :
    (e.queueFile f sent).socket = e.socket := by
  unfold queueFile
  dsimp only
  split_ifs <;> rfl

/-- While output waits, a message waits too. -/
theorem send_busy (hw : e.conn.channel.isWriting = true) {msg : Bytes}
    (hs : e.send msg = .ok e') : e'.socket = e.socket ∧ e'.conn.channel.isWriting = true := by
  have hn : ¬e.SendsDirectly := by simp [SendsDirectly, hw]
  rcases send_ok hs with ⟨-, rfl⟩ | ⟨hd, -⟩ | ⟨hd, -⟩ | ⟨hd, -⟩
  · exact ⟨e.queue_socket msg, e.queue_busy (.inl hw)⟩
  · exact (hn hd).elim
  · exact (hn hd).elim
  · exact (hn hd).elim

theorem sendFile_busy (hw : e.conn.channel.isWriting = true) {f : OpenFile}
    (hs : e.sendFile f = .ok e') : e'.socket = e.socket := by
  have hn : ¬e.SendsFileDirectly := by simp [SendsFileDirectly, hw]
  rcases sendFile_ok hs with ⟨-, rfl⟩ | ⟨hd, -⟩ | ⟨hd, -⟩ | ⟨hd, -⟩
  · exact e.queueFile_socket f 0
  · exact (hn hd).elim
  · exact (hn hd).elim
  · exact (hn hd).elim

/-- While nothing waits, a message goes out as far as the kernel takes it, and the rest waits. -/
theorem send_idle (hidle : e.SendsDirectly) (hk : Obliging e.kernel) {msg : Bytes}
    (hs : e.send msg = .ok e') :
    e'.socket = e.socket ++ msg.take (e.takes msg.length) ∧ e'.kernel = e.kernel.tail ∧
      (e.takes msg.length = msg.length → e'.conn = e.conn) ∧
      (e.takes msg.length < msg.length → e'.conn.channel.isWriting = true) := by
  rcases send_ok hs with ⟨hn, -⟩ | ⟨-, n, k, hkernel, rfl⟩ | ⟨-, k, hkernel, rfl⟩ |
    ⟨-, err, k, herr, hkernel, -⟩
  · exact (hn hidle).elim
  · have htakes : e.takes msg.length = min n msg.length := by rw [takes, hkernel]
    rw [queue_socket, queue_kernel, htakes, hkernel]
    refine ⟨?_, rfl, ?_, ?_⟩
    · rw [← List.take_eq_take_min]
    · intro hall
      rw [hall, List.drop_length, queue_nil]
    · intro hpart
      refine queue_busy _ (.inr ?_)
      rw [List.length_drop]
      omega
  · have htakes : e.takes msg.length = 0 := by rw [takes, hkernel]
    rw [queue_socket, queue_kernel, htakes, hkernel, List.take_zero, List.append_nil]
    refine ⟨rfl, rfl, ?_, ?_⟩
    · intro hall
      rw [List.eq_nil_of_length_eq_zero hall.symm, queue_nil]
    · intro hpart
      exact queue_busy _ (.inr hpart)
  · exact (herr (hk (.fails err) (by simp [hkernel]) err rfl)).elim

theorem sendFile_idle (hidle : e.SendsFileDirectly) (hk : Obliging e.kernel) {f : OpenFile}
    (hs : e.sendFile f = .ok e') :
    e'.socket = e.socket ++ f.content.take (e.takes f.content.length) := by
  rcases sendFile_ok hs with ⟨hn, -⟩ | ⟨-, n, k, hkernel, rfl⟩ | ⟨-, k, hkernel, rfl⟩ |
    ⟨-, err, k, herr, hkernel, -⟩
  · exact (hn hidle).elim
  · rw [queueFile_socket, takes, hkernel, ← List.take_eq_take_min]
  · rw [queueFile_socket, takes, hkernel, List.take_zero, List.append_nil]
  · exact (herr (hk (.fails err) (by simp [hkernel]) err rfl)).elim

end Endpoint

namespace HTTPServer

open Endpoint

variable {files : Nat → Bytes}

/-- Every byte of the response is accepted by the socket, behind what waited before. -/
def Delivered (files : Nat → Bytes) (res : HTTPResponse) (e e' : Endpoint) : Prop :=
  e'.socket = e.socket ++ e.pending ++ responseBytes files res

/-- The kernel takes the response at once: nothing waits, the first answer takes head and body
whole, and the second one takes the big file whole, if there is one. -/
def TakenAtOnce (files : Nat → Bytes) (res : HTTPResponse) (e : Endpoint) : Prop :=
  e.conn.channel.isWriting = false ∧
    e.takes res.getResponse.toString.length = res.getResponse.toString.length ∧
    (0 ≤ res.bigFileFd →
      takes { e with kernel := e.kernel.tail } (files res.bigFileFd.toNat).length =
        (files res.bigFileFd.toNat).length)

theorem response_length_pos (res : HTTPResponse) : 0 < res.getResponse.toString.length := by
  rw [res.getResponse_toString, List.length_append]
  simp [CRLF]

theorem finish_socket (res : HTTPResponse) (e : Endpoint) : (finish res e).socket = e.socket := by
  unfold finish handleClose
  split_ifs <;> rfl

theorem finish_state {res : HTTPResponse} (hclose : res.close = true) (e : Endpoint) :
    (finish res e).conn.state = .disconnected := by
  unfold finish handleClose
  split_ifs with h1 h2
  · exact h2
  · rfl
  · by_contra hd
    exact h1 ⟨hclose, hd⟩

/-- What the socket has at the end of `respond`, when nothing waited before. -/
theorem respond_socket {res : HTTPResponse} {e e' : Endpoint} (h : e.Watched)
    (hidle : e.conn.channel.isWriting = false) (hk : Obliging e.kernel)
    (hs : respond files res none e = .ok e') :
    e'.socket = e.socket ++
      (res.getResponse.toString.take (e.takes res.getResponse.toString.length) ++
        if res.bigFileFd < 0 ∨
            e.takes res.getResponse.toString.length < res.getResponse.toString.length then []
        else (files res.bigFileFd.toNat).take
          (takes { e with kernel := e.kernel.tail } (files res.bigFileFd.toNat).length)) := by
  obtain ⟨hout, hfiles⟩ := h.idle hidle
  obtain ⟨e1, hsend, hrest⟩ := respond_ok hs
  obtain ⟨hsock1, hker1, hall, hpart⟩ := send_idle ⟨by simp [hidle], hout⟩ hk hsend
  rw [← List.append_assoc, ← hsock1]
  rcases hrest with ⟨hfd, rfl⟩ | ⟨hfd, e2, hfile, rfl⟩
  · rw [if_pos (.inl hfd), finish_socket, List.append_nil]
  · rw [finish_socket]
    by_cases hlt : e.takes res.getResponse.toString.length < res.getResponse.toString.length
    · rw [if_pos (.inr hlt), List.append_nil]
      exact sendFile_busy (hpart hlt) hfile
    · have hwhole := le_antisymm (e.takes_le _) (Nat.not_lt.mp hlt)
      have hconn := hall hwhole
      have hidle1 : e1.SendsFileDirectly := by
        rw [SendsFileDirectly]
        rw [hconn]
        exact ⟨by simp [hidle], hfiles⟩
      have hk1 : Obliging e1.kernel := by
        rw [hker1]
        exact fun a ha => hk a (List.mem_of_mem_tail ha)
      have htakes : ∀ size, e1.takes size = takes { e with kernel := e.kernel.tail } size := by
        intro size
        rw [takes, takes, hker1]
      rw [if_neg (not_or.mpr ⟨hfd, hlt⟩), sendFile_idle hidle1 hk1 hfile, htakes]

/-- While output waits, nothing of the response goes out. -/
theorem respond_busy {res : HTTPResponse} {e e' : Endpoint}
    (hw : e.conn.channel.isWriting = true) (hs : respond files res none e = .ok e') :
    e'.socket = e.socket := by
  obtain ⟨e1, hsend, hrest⟩ := respond_ok hs
  obtain ⟨hsock1, hw1⟩ := send_busy hw hsend
  rcases hrest with ⟨-, rfl⟩ | ⟨-, e2, hfile, rfl⟩
  · rw [finish_socket, hsock1]
  · rw [finish_socket, sendFile_busy hw1 hfile, hsock1]

/-- The response is delivered by the end of `respond` exactly when the kernel takes it at once. -/
theorem respond_delivered_iff {res : HTTPResponse} {e e' : Endpoint} (h : e.Watched)
    (hk : Obliging e.kernel) (hs : respond files res none e = .ok e') :
    Delivered files res e e' ↔ TakenAtOnce files res e := by
  have hpos := response_length_pos res
  have hle1 := e.takes_le res.getResponse.toString.length
  have hle2 := takes_le { e with kernel := e.kernel.tail } (files res.bigFileFd.toNat).length
  unfold Delivered TakenAtOnce responseBytes
  cases hw : e.conn.channel.isWriting with
  | true =>
    rw [respond_busy hw hs]
    refine iff_of_false ?_ (by simp)
    intro hsock
    have hlen := congrArg List.length hsock
    simp only [List.length_append] at hlen
    omega
  | false =>
    obtain ⟨hout, hfiles⟩ := h.idle hw
    have hnone : e.pending = [] := by
      have hlen := e.conn.outBuffer.toString_length h.wf
      rw [hout] at hlen
      rw [pending, List.eq_nil_of_length_eq_zero hlen, hfiles]
      rfl
    rw [respond_socket h hw hk hs, hnone, List.append_nil, List.append_cancel_left_eq]
    constructor
    · intro hsock
      have hlen := congrArg List.length hsock
      refine ⟨rfl, ?_⟩
      by_cases hfd : res.bigFileFd < 0
      · simp only [hfd, true_or, if_true, List.append_nil, List.length_take] at hlen
        exact ⟨by omega, fun hfd' => absurd hfd' (by omega)⟩
      · by_cases hlt : e.takes res.getResponse.toString.length <
            res.getResponse.toString.length
        · simp only [hlt, or_true, if_true, if_neg hfd, List.length_append, List.length_take,
            List.length_nil] at hlen
          omega
        · rw [if_neg (not_or.mpr ⟨hfd, hlt⟩), if_neg hfd] at hlen
          simp only [List.length_append, List.length_take] at hlen
          exact ⟨by omega, fun _ => by omega⟩
    · intro hall
      obtain ⟨-, hwhole, hfile⟩ := hall
      rw [hwhole, List.take_length]
      by_cases hfd : res.bigFileFd < 0
      · rw [if_pos (.inl hfd), if_pos hfd]
      · rw [if_neg (not_or.mpr ⟨hfd, lt_irrefl _⟩), if_neg hfd, hfile (by omega),
          List.take_length]

end HTTPServer

open HTTPServer in
/-- A request after whose response the server closes: the connection is disconnected at the end of
the callback, and the response is accepted by then exactly when the kernel takes it at once. -/
theorem graceful_close_iff (files : Nat → Bytes) (onResponse : OnResponse)
    (hcalls : UsesCalls onResponse) (w : Workload) (k : List Answer) (events : List Event)
    (s s' : Session) (hrun : Runs files onResponse (.new w k) events s)
    (hopen : s.endpoint.conn.state = .connected) (hk : Obliging s.endpoint.kernel)
    (data : Bytes) (ctx : HTTPContext) (b : Buffer)
    (hparse : s.context.parseRequest (s.endpoint.conn.inBuffer.append data) =
      some (.complete, ctx, b)) (res : HTTPResponse)
    (hresponse : onResponse ctx.request (.new
      (toLower (ctx.request.getHeaderByKey (bytes "Connection")) = bytes "close") .ok) =
        (res, none))
    (hclose : res.close = true) (hstep : receive files onResponse s data = some (.ok s')) :
    s'.endpoint.conn.state = .disconnected ∧
      (Delivered files res s.endpoint s'.endpoint ↔ TakenAtOnce files res s.endpoint) := by
  obtain ⟨hwatched, -⟩ := runs_watched hcalls w k hrun
  rw [receive_eq files onResponse hopen hparse] at hstep
  have hr := onEndpoint_ok (Option.some.inj hstep)
  dsimp only at hr
  rw [hresponse] at hr
  have h1 : (s.setInBuffer b).endpoint.Watched :=
    ⟨hwatched.wf, hwatched.synced, hwatched.files, hwatched.writing⟩
  have hiff := respond_delivered_iff h1 hk hr
  refine ⟨?_, hiff⟩
  obtain ⟨e1, -, ⟨-, he⟩ | ⟨-, e2, -, he⟩⟩ := respond_ok hr
  · rw [he]
    exact finish_state hclose _
  · rw [he]
    exact finish_state hclose _

namespace HTTPServer

def closeRequest : Bytes := bytes "GET / HTTP/1.1\r\nConnection: close\r\n\r\n"

/-- A new connection reads `closeRequest` whole, and its response closes. -/
theorem closeRequest_received (k : List Answer) :
    ∃ ctx b, (Session.new ⟨1, 0⟩ k).context.parseRequest
        ((Session.new ⟨1, 0⟩ k).endpoint.conn.inBuffer.append closeRequest) =
          some (.complete, ctx, b) ∧
      toLower (ctx.request.getHeaderByKey (bytes "Connection")) = bytes "close" := by
  have hparse : (HTTPContext.new.parseRequest (Buffer.default.append closeRequest)).map
      (fun r => (r.1, toLower (r.2.1.request.getHeaderByKey (bytes "Connection")))) =
        some (.complete, bytes "close") := by decide +kernel
  obtain ⟨⟨st, ctx, b⟩, hp, he⟩ := Option.map_eq_some_iff.mp hparse
  obtain ⟨hst, hheader⟩ := Prod.mk.inj he
  exact ⟨ctx, b, hst ▸ hp, hheader⟩

theorem graceful_close_iff_at_once :
    ∃ s', receive (fun _ => []) plainResponse (.new ⟨1, 0⟩ [.accepts 999]) closeRequest =
        some (.ok s') ∧
      s'.endpoint.conn.state = .disconnected ∧
      Delivered (fun _ => []) (.new true .ok) (.connected ⟨1, 0⟩ [.accepts 999]) s'.endpoint := by
  obtain ⟨ctx, b, hparse, hheader⟩ := closeRequest_received [.accepts 999]
  have hok : (receive (fun _ => []) plainResponse (.new ⟨1, 0⟩ [.accepts 999]) closeRequest).map
      (·.toOption.isSome) = some true := by decide +kernel
  obtain ⟨r, hread, hr⟩ := Option.map_eq_some_iff.mp hok
  cases r with
  | error s => simp [Except.toOption] at hr
  | ok s' =>
    have hgraceful := graceful_close_iff (fun _ => []) plainResponse
      (fun _ _ _ _ _ _ h => by cases h) ⟨1, 0⟩ [.accepts 999] [] _ s' (.nil _) rfl
      (by simp [Obliging, Session.new, Endpoint.connected]) closeRequest ctx b hparse
      (.new true .ok) (by simp [plainResponse, hheader]) rfl hread
    exact ⟨s', hread, hgraceful.1, hgraceful.2.mpr ⟨by decide, by decide +kernel, by decide⟩⟩

/-- The socket takes five bytes of the response, and the connection is closed all the same. -/
theorem closed_too_early :
    ∃ s', receive (fun _ => []) plainResponse (.new ⟨1, 0⟩ [.accepts 5]) closeRequest =
        some (.ok s') ∧
      s'.endpoint.conn.state = .disconnected ∧
      s'.endpoint.socket = bytes "HTTP/" ∧
      ¬Delivered (fun _ => []) (.new true .ok) (.connected ⟨1, 0⟩ [.accepts 5]) s'.endpoint := by
  have hok : (receive (fun _ => []) plainResponse (.new ⟨1, 0⟩ [.accepts 5]) closeRequest).map
      (fun r => r.toOption.map fun s' => (s'.endpoint.conn.state, s'.endpoint.socket)) =
        some (some (.disconnected, bytes "HTTP/")) := by decide +kernel
  obtain ⟨r, hread, hr⟩ := Option.map_eq_some_iff.mp hok
  cases r with
  | error s => simp [Except.toOption] at hr
  | ok s' =>
    obtain ⟨hstate, hsocket⟩ := Prod.mk.inj (Option.some.inj hr)
    refine ⟨s', hread, hstate, hsocket, ?_⟩
    intro hdelivered
    rw [Delivered, hsocket] at hdelivered
    have hlen : ([] ++ [] ++ responseBytes (fun _ => []) (.new true .ok)).length ≠ 5 := by
      decide +kernel
    exact hlen (congrArg List.length hdelivered).symm

end HTTPServer

end MuduoServer

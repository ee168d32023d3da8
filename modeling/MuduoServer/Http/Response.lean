import Mathlib.Data.List.AList
import MuduoServer.Http.Request
import MuduoServer.Tcp.Buffer

namespace MuduoServer

namespace HTTPResponse

inductive Status
  | continue | ok | noContent | badRequest | forbidden | notFound | internalServerError
  | notImplemented | httpVersionNotSupported
  deriving DecidableEq, Repr

/-- The value of the enumerator. -/
def Status.code : Status → Nat
  | .continue => 100 | .ok => 200 | .noContent => 204 | .badRequest => 400 | .forbidden => 403
  | .notFound => 404 | .internalServerError => 500 | .notImplemented => 501
  | .httpVersionNotSupported => 505

def statusToString : Status → Bytes
  | .continue => bytes "Continue"
  | .ok => bytes "OK"
  | .badRequest => bytes "Bad Request"
  | .forbidden => bytes "Forbidden"
  | .notFound => bytes "Not Found"
  | .internalServerError => bytes "Internal Server Error"
  | .notImplemented => bytes "Not Implemented"
  | .httpVersionNotSupported => bytes "HTTP Version Not Supported"
  | .noContent => bytes "Internal Server Error"

end HTTPResponse

/-- `HTTPResponse`. The entries of `headers` stand in the order in which the map is iterated. -/
structure HTTPResponse where
  close : Bool
  status : HTTPResponse.Status
  headers : StringMap
  body : Option Buffer
  bigFileFd : Int

def CRLF : Bytes := [CR, LF]

namespace HTTPResponse

/-- `HTTPResponse(close, status)`. -/
def new (close : Bool) (status : Status) : HTTPResponse := ⟨close, status, ∅, none, -1⟩

def addHeader (r : HTTPResponse) (key value : Bytes) : HTTPResponse :=
  { r with headers := r.headers.insert key value }

/-- The lines of the head, without their ends. -/
def lines (r : HTTPResponse) : List Bytes :=
  [bytes "HTTP/1.1" ++ bytes " " ++ decimal r.status.code ++ bytes " " ++ statusToString r.status,
    if r.close then bytes "Connection: close" else bytes "Connection: keep-alive"] ++
  r.headers.entries.map (fun h => h.1 ++ bytes ": " ++ h.2) ++
  match r.body with
    | some b => [bytes "Content-Length: " ++ decimal b.readableBytes]
    | none => []

def bodyBytes (r : HTTPResponse) : Bytes :=
  match r.body with
  | some b => b.toString
  | none => []

/-- `before_body`: each line with its end, and the separator. -/
def beforeBody (r : HTTPResponse) : Bytes := r.lines.flatMap (· ++ CRLF) ++ CRLF

/-- `getResponse`: the head, the body, and two bytes more. -/
def getResponse (r : HTTPResponse) : Buffer :=
  let len := match r.body with
    | some b => r.beforeBody.length + b.readableBytes + 2
    | none => r.beforeBody.length + 2
  let response := (Buffer.new len 8).append r.beforeBody
  let response := match r.body with
    | some b => response.append b.toString
    | none => response
  response.append CRLF

theorem new_wf (initSize cheapPrepend : Nat) : (Buffer.new initSize cheapPrepend).Wf := by
  refine ⟨le_refl _, le_refl _, ?_⟩
  simp [Buffer.new]

theorem getResponse_toString (r : HTTPResponse) :
    r.getResponse.toString = r.beforeBody ++ r.bodyBytes ++ CRLF := by
  have hnew : ∀ len, (Buffer.new len 8).toString = [] := fun len => by
    simp [Buffer.new, Buffer.toString, Buffer.readableBytes]
  unfold getResponse bodyBytes
  cases r.body with
  | none =>
    obtain ⟨h1, hs1, -⟩ := (Buffer.new (r.beforeBody.length + 2) 8).append_spec (new_wf _ _)
      r.beforeBody
    obtain ⟨-, hs2, -⟩ := Buffer.append_spec _ h1 CRLF
    rw [hs2, hs1, hnew, List.nil_append, List.append_nil]
  | some b =>
    obtain ⟨h1, hs1, -⟩ := (Buffer.new (r.beforeBody.length + b.readableBytes + 2) 8).append_spec
      (new_wf _ _) r.beforeBody
    obtain ⟨h2, hs2, -⟩ := Buffer.append_spec _ h1 b.toString
    obtain ⟨-, hs3, -⟩ := Buffer.append_spec _ h2 CRLF
    rw [hs3, hs2, hs1, hnew, List.nil_append]

end HTTPResponse

end MuduoServer

import Mathlib.Data.List.AList
import MuduoServer.Base.Bytes

namespace MuduoServer

/-- `std::unordered_map<std::string, std::string>`. -/
abbrev StringMap := AList (fun _ : Bytes => Bytes)

namespace HTTPRequest

inductive Method
  | invalid | get | head | post | options
  deriving DecidableEq, Repr

inductive Version
  | invalid | http10 | http11
  deriving DecidableEq, Repr

end HTTPRequest

structure HTTPRequest where
  method : HTTPRequest.Method
  url : Bytes
  version : HTTPRequest.Version
  protocol : Bytes
  params : StringMap
  headers : StringMap
  body : Bytes

namespace HTTPRequest

/-- `HTTPRequest()`. -/
def new : HTTPRequest := ⟨.invalid, [], .invalid, [], ∅, ∅, []⟩

def setVersion (r : HTTPRequest) (ver : Bytes) : HTTPRequest :=
  { r with version :=
      if ver = bytes "1.1" then .http11
      else if ver = bytes "1.0" then .http10
      else .invalid }

/-- The caller in `parseRequest` drops the returned verdict; it is `method() != Invalid`. -/
def setMethod (r : HTTPRequest) (method : Bytes) : HTTPRequest :=
  { r with method :=
      if method = bytes "GET" then .get
      else if method = bytes "HEAD" then .head
      else if method = bytes "POST" then .post
      else if method = bytes "OPTIONS" then .options
      else .invalid }

def setUrl (r : HTTPRequest) (url : Bytes) : HTTPRequest := { r with url := url }

def addParam (r : HTTPRequest) (key value : Bytes) : HTTPRequest :=
  { r with params := r.params.insert key value }

/-- The source looks in `headers_`. -/
def getParamByKey (r : HTTPRequest) (key : Bytes) : Bytes := (r.headers.lookup key).getD []

def setProtocol (r : HTTPRequest) (protocol : Bytes) : HTTPRequest :=
  { r with protocol := protocol }

def addHeader (r : HTTPRequest) (field value : Bytes) : HTTPRequest :=
  { r with headers := r.headers.insert field value }

def getHeaderByKey (r : HTTPRequest) (field : Bytes) : Bytes := (r.headers.lookup field).getD []

def appendBody (r : HTTPRequest) (body : Bytes) : HTTPRequest := { r with body := r.body ++ body }

@[simp] theorem appendBody_nil (r : HTTPRequest) : r.appendBody [] = r := by
  simp [appendBody]

theorem appendBody_append (r : HTTPRequest) (a b : Bytes) :
    (r.appendBody a).appendBody b = r.appendBody (a ++ b) := by
  simp [appendBody, List.append_assoc]

theorem appendBody_inj (r : HTTPRequest) (a b : Bytes) :
    r.appendBody a = r.appendBody b ↔ a = b := by
  constructor
  · intro h
    exact List.append_cancel_left (congrArg HTTPRequest.body h)
  · rintro rfl
    rfl

end HTTPRequest

end MuduoServer

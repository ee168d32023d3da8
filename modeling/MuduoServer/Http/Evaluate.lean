import MuduoServer.Http.Response
import MuduoServer.Framework.Run

namespace MuduoServer

/-- A value of the JSON library. A number is kept as its text. -/
inductive Json
  | null
  | boolean (b : Bool)
  | number (text : Bytes)
  | string (s : Bytes)
  | array (items : List Json)
  | object (members : List (Bytes × Json))

/-- What the JSON library throws. -/
inductive JsonException
  | parse_error
  | type_error
  deriving DecidableEq, Repr

namespace Json

/-- `find(key)`, which is `end()` on a value that is no object. -/
def find (key : Bytes) : Json → Option Json
  | object members => members.lookup key
  | _ => none

/-- `get<std::string>()`. -/
def getString : Json → Except JsonException Bytes
  | string s => .ok s
  | _ => .error .type_error

def isString : Json → Bool
  | string _ => true
  | _ => false

theorem getString_ok {j : Json} (h : j.isString = true) : ∃ s, j.getString = .ok s := by
  cases j <;> first | exact ⟨_, rfl⟩ | cases h

theorem getString_isString {j : Json} {s : Bytes} (h : j.getString = .ok s) :
    j.isString = true := by
  cases j <;> first | rfl | cases h

end Json

/-- What the callback that the route registers holds: the code and the edition. -/
abbrev EvaluateCall := Bytes × Int

/-- `Buffer(const std::string&)`. -/
def textBuffer (str : Bytes) : Buffer := ⟨0, str, 0, str.length⟩

/-- `json_res.dump()`. -/
def dumpError (error : Bytes) : Bytes :=
  bytes "\x7b\"result\":\"\",\"error\":\"" ++ error ++ bytes "\"\x7d"

namespace Evaluate

/-- The answer to a text that is no JSON, or has not the two members. -/
def invalidJson (res : HTTPResponse) : HTTPResponse :=
  { res with
    close := true
    status := .badRequest
    body := some (textBuffer (bytes "Invalid JSON")) }

def refuse (error : Bytes) (res : HTTPResponse) : HTTPResponse :=
  { res with body := some (textBuffer (dumpError error)) }

/-- What the route does with the two strings. -/
def respond (code : Bytes) (edition : Int) (res : HTTPResponse) :
    HTTPResponse × Option EvaluateCall :=
  if code = [] then (refuse (bytes "No code sent to the server!") res, none)
  else if 10 * 1024 < code.length then
    (refuse (bytes "Code is too long! Like over 10 * 1024 bytes that long!") res, none)
  else if edition ≠ 11 ∧ edition ≠ 17 ∧ edition ≠ 20 then
    (refuse (bytes "Invalid edition! Only support C++11, C++17 and C++20!") res, none)
  else (res, some (code, edition))

/-- The handler of `POST /evaluate.json`, over what `json::parse` does. An exception that it lets
out is an error here; that of `parse` is caught. -/
def handler (parse : Bytes → Except JsonException Json) (body : Bytes) (res : HTTPResponse) :
    Except JsonException (HTTPResponse × Option EvaluateCall) :=
  match parse body with
  | .error _ => .ok (invalidJson res, none)
  | .ok json_req =>
    match json_req.find (bytes "code"), json_req.find (bytes "edition") with
    | some code, some edition => do
      let code ← code.getString
      let edition ← edition.getString
      return respond code (atoi edition) res
    | _, _ => .ok (invalidJson res, none)

/-- The handler returns, with a body in the response or with a callback. -/
def Handled (parse : Bytes → Except JsonException Json) (body : Bytes) (close : Bool) : Prop :=
  ∃ res call, handler parse body (.new close .ok) = .ok (res, call) ∧
    (res.body ≠ none ∨ call ≠ none)

/-- An object with both members, one of which is no string. -/
def Mistyped (parse : Bytes → Except JsonException Json) (body : Bytes) : Prop :=
  ∃ json_req code edition, parse body = .ok json_req ∧
    json_req.find (bytes "code") = some code ∧ json_req.find (bytes "edition") = some edition ∧
    (code.isString && edition.isString) = false

theorem respond_handled (code : Bytes) (edition : Int) (res : HTTPResponse) :
    (respond code edition res).1.body ≠ none ∨ (respond code edition res).2 ≠ none := by
  rw [respond]
  split_ifs
  · exact .inl (by simp [refuse])
  · exact .inl (by simp [refuse])
  · exact .inl (by simp [refuse])
  · exact .inr (by simp)

variable {parse : Bytes → Except JsonException Json} {body : Bytes}

theorem handler_found {json_req code edition : Json} (hparse : parse body = .ok json_req)
    (hcode : json_req.find (bytes "code") = some code)
    (hedition : json_req.find (bytes "edition") = some edition) (res : HTTPResponse) :
    handler parse body res = (do
      let code ← code.getString
      let edition ← edition.getString
      return respond code (atoi edition) res) := by
  simp only [handler, hparse, hcode, hedition]

theorem Mistyped.not_handled (h : Mistyped parse body) (close : Bool) :
    ¬Handled parse body close := by
  obtain ⟨json_req, code, edition, hparse, hcode, hedition, htype⟩ := h
  rintro ⟨res, call, hok, -⟩
  rw [handler_found hparse hcode hedition] at hok
  obtain ⟨s, hs, hok⟩ := bind_eq_ok.mp hok
  obtain ⟨e, he, -⟩ := bind_eq_ok.mp hok
  rw [Json.getString_isString hs, Json.getString_isString he] at htype
  cases htype

theorem handled_of_invalid {close : Bool}
    (h : handler parse body (.new close .ok) = .ok (invalidJson (.new close .ok), none)) :
    Handled parse body close :=
  ⟨_, _, h, .inl (by simp [invalidJson])⟩

/-- The handler deals with every body but an object with both members of which one is no string:
the exception of `get` leaves it. -/
theorem handled_iff (parse : Bytes → Except JsonException Json) (body : Bytes) (close : Bool) :
    Handled parse body close ↔ ¬Mistyped parse body := by
  constructor
  · exact fun h hmis => hmis.not_handled close h
  · intro hmis
    cases hparse : parse body with
    | error err =>
      exact handled_of_invalid (by simp only [handler, hparse])
    | ok json_req =>
      cases hcode : json_req.find (bytes "code") with
      | none =>
        exact handled_of_invalid (by simp only [handler, hparse, hcode])
      | some code =>
        cases hedition : json_req.find (bytes "edition") with
        | none =>
          exact handled_of_invalid (by simp only [handler, hparse, hcode, hedition])
        | some edition =>
          have hstrings : (code.isString && edition.isString) = true := by
            by_contra hno
            exact hmis ⟨json_req, code, edition, hparse, hcode, hedition, by simpa using hno⟩
          rw [Bool.and_eq_true] at hstrings
          obtain ⟨s, hs⟩ := Json.getString_ok hstrings.1
          obtain ⟨e, he⟩ := Json.getString_ok hstrings.2
          refine ⟨_, _, ?_, respond_handled s (atoi e) (.new close .ok)⟩
          rw [handler_found hparse hcode hedition, hs, he]
          rfl

/-- What the parser makes of an object with a number for its code. -/
def numberCode (body : Bytes) : Except JsonException Json :=
  if body = bytes "\x7b\"code\":1,\"edition\":\"17\"\x7d" then
    .ok (.object [(bytes "code", .number (bytes "1")), (bytes "edition", .string (bytes "17"))])
  else .error .parse_error

theorem number_escapes :
    handler numberCode (bytes "\x7b\"code\":1,\"edition\":\"17\"\x7d") (.new false .ok) =
        .error .type_error ∧
      ¬Handled numberCode (bytes "\x7b\"code\":1,\"edition\":\"17\"\x7d") false := by
  refine ⟨rfl, Mistyped.not_handled ?_ false⟩
  exact ⟨_, .number (bytes "1"), .string (bytes "17"), if_pos rfl, rfl, rfl, rfl⟩

end Evaluate

end MuduoServer

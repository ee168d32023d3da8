import MuduoServer.Http.Context

namespace MuduoServer

namespace ParseState

/-- The states in which the text is still that of a request head. -/
def inHead (s : ParseState) : Bool := s.unfinished && s != .body && s != .header

/-- The states in which the separator of a key and its value has been met. -/
def afterColon (s : ParseState) : Bool :=
  s == .beforeUrlParamValue || s == .urlParamValue || s == .beforeHeaderValue || s == .headerValue

theorem inHead_unfinished {s : ParseState} (h : s.inHead) : s.unfinished := by
  revert h
  cases s <;> decide

theorem isInvalid_not_inHead {s : ParseState} (h : s.isInvalid) : s.inHead = false := by
  revert h
  cases s <;> decide

theorem isInvalid_finished {s : ParseState} (h : s.isInvalid) : s.unfinished = false := by
  revert h
  cases s <;> decide

theorem ne_of_inHead {s s' : ParseState} (h : s.inHead) (h' : s'.inHead = false) : s ≠ s' := by
  rintro rfl
  rw [h] at h'
  cases h'

theorem ne_of_isInvalid {s s' : ParseState} (h : s.isInvalid) (h' : s'.isInvalid = false) :
    s ≠ s' := by
  rintro rfl
  rw [h] at h'
  cases h'

end ParseState

/-- What the bytes of a head read so far amount to, however they arrived: the state, the request
built from the finished words, the bytes of the word being read, and where its separator stands. -/
structure Scan where
  state : ParseState
  request : HTTPRequest
  word : Bytes
  colon : Nat

namespace Scan

def init : Scan := ⟨.start, .new, [], 0⟩

/-- The byte belongs to the word being read. -/
def keep (s : Scan) (c : UInt8) (st : ParseState) : Scan :=
  { s with state := st, word := s.word ++ [c] }

/-- The byte is the separator in the word being read. -/
def mark (s : Scan) (c : UInt8) (st : ParseState) : Scan :=
  { s with state := st, word := s.word ++ [c], colon := s.word.length }

/-- The byte ends the word, which `f` enters into the request. -/
def cut (s : Scan) (st : ParseState) (f : HTTPRequest → HTTPRequest) : Scan :=
  ⟨st, f s.request, [], 0⟩

def fail (s : Scan) (st : ParseState) : Scan := { s with state := st }

/-- The key and the value of the word read, with `gap` bytes from the separator to the value. -/
def key (s : Scan) : Bytes := s.word.take s.colon
def value (s : Scan) (gap : Nat) : Bytes := s.word.drop (s.colon + gap)

/-- The automaton of the head. The line feed of the blank line leads to `body`. -/
def next (s : Scan) (c : UInt8) : Scan :=
  match s.state with
  | .start =>
    if isblank c || c == CR || c == LF then s
    else if isupper c then { s with state := .method, word := [c] }
    else s.fail .invalidMethod
  | .method =>
    if isupper c then s.keep c .method
    else if isblank c then s.cut .beforeUrl (·.setMethod s.word)
    else s.fail .invalidMethod
  | .beforeUrl => if c == 47 then s.keep c .url else s.fail .invalidUrl
  | .url =>
    if c == 63 then s.cut .beforeUrlParamKey (·.setUrl s.word)
    else if isblank c then s.cut .beforeProtocol (·.setUrl s.word)
    else if isInvalidURLChar c then s.fail .invalidUrl
    else s.keep c .url
  | .beforeUrlParamKey =>
    if isInvalidURLChar c then s.fail .invalidUrl else s.keep c .urlParamKey
  | .urlParamKey =>
    if c == 61 then s.mark c .beforeUrlParamValue
    else if isInvalidURLChar c then s.fail .invalidUrl
    else s.keep c .urlParamKey
  | .beforeUrlParamValue =>
    if isInvalidURLChar c then s.fail .invalidUrl else s.keep c .urlParamValue
  | .urlParamValue =>
    if c == 38 then s.cut .beforeUrlParamKey (·.addParam s.key (s.value 1))
    else if isblank c then s.cut .beforeProtocol (·.addParam s.key (s.value 1))
    else if isInvalidURLChar c then s.fail .invalidUrl
    else s.keep c .urlParamValue
  | .beforeProtocol =>
    if isupper c then { s with state := .protocol, word := [c] } else s.fail .invalidProtocol
  | .protocol =>
    if isupper c then s.keep c .protocol
    else if c == 47 then s.cut .beforeVersion (·.setProtocol s.word)
    else s.fail .invalidProtocol
  | .beforeVersion => if isdigit c then s.keep c .version else s.fail .invalidProtocol
  | .version =>
    if c == CR then s.cut .encounterCr (·.setVersion s.word)
    else if isdigit c || c == 46 then s.keep c .version
    else s.fail .invalidProtocol
  | .encounterCr => if c == LF then s.cut .crLf id else s.fail .invalidCrlf
  | .crLf =>
    if c == CR then s.keep c .crLfCr
    else if isInvalidHeaderKeyChar c then s.fail .invalidHeader
    else s.keep c .headerKey
  | .headerKey =>
    if c == 58 then s.mark c .beforeHeaderValue
    else if isInvalidHeaderKeyChar c then s.fail .invalidHeader
    else s.keep c .headerKey
  | .beforeHeaderValue =>
    if !isblank c then s.fail .invalidHeader else s.keep c .headerValue
  | .headerValue =>
    if c == CR then s.cut .encounterCr (·.addHeader s.key (s.value 2)) else s.keep c .headerValue
  | .crLfCr => if c == LF then s.cut .body id else s.fail .invalidCrlf
  | _ => s

/-- The scan of a piece of text. -/
def feed (s : Scan) (cs : Bytes) : Scan := cs.foldl next s

@[simp] theorem feed_nil (s : Scan) : s.feed [] = s := rfl

@[simp] theorem feed_cons (s : Scan) (c : UInt8) (cs : Bytes) :
    s.feed (c :: cs) = (s.next c).feed cs := rfl

theorem feed_append (s : Scan) (a b : Bytes) : s.feed (a ++ b) = (s.feed a).feed b := by
  simp [feed, List.foldl_append]

/-- Outside the head the automaton rests. -/
theorem next_of_not_inHead (s : Scan) (c : UInt8) (h : s.state.inHead = false) : s.next c = s := by
  rw [next]
  cases hs : s.state <;> simp_all [ParseState.inHead, ParseState.unfinished, ParseState.value]

theorem feed_of_not_inHead (s : Scan) (cs : Bytes) (h : s.state.inHead = false) :
    s.feed cs = s := by
  induction cs with
  | nil => rfl
  | cons c cs ih => rw [feed_cons, next_of_not_inHead s c h, ih]

theorem inHead_of_feed (s : Scan) (cs : Bytes) (h : (s.feed cs).state.inHead) : s.state.inHead := by
  by_contra hn
  have hf : s.state.inHead = false := by simpa using hn
  rw [feed_of_not_inHead s cs hf] at h
  exact hn h

/-- What a scan keeps: the separator stands inside the word, with the blank after it once a header
value is read, and no word is open before the method and before the protocol. -/
structure Ok (s : Scan) : Prop where
  colon_lt : s.state.afterColon → s.colon < s.word.length
  gap : s.state = .headerValue → s.colon + 2 ≤ s.word.length
  closed : s.state = .start ∨ s.state = .beforeProtocol → s.word = []

theorem init_ok : init.Ok :=
  ⟨by simp [init, ParseState.afterColon], by simp [init], fun _ => rfl⟩

end Scan

end MuduoServer

import MuduoServer.Http.Scanner

namespace MuduoServer

/-- A word of a URL's parameters. -/
def IsUrlWord (w : Bytes) : Prop := w ≠ [] ∧ ∀ c ∈ w, isInvalidURLChar c = false

/-- A pair `key=value` of a URL. -/
structure UrlParam where
  key : Bytes
  value : Bytes
  key_ok : IsUrlWord key
  value_ok : IsUrlWord value

/-- A line `key: value`, with the blank that follows the colon. -/
structure HeaderLine where
  key : Bytes
  blank : UInt8
  value : Bytes
  key_ne : key ≠ []
  key_ok : ∀ c ∈ key, isInvalidHeaderKeyChar c = false
  key_colon : 58 ∉ key.tail
  blank_ok : isblank blank = true
  value_ok : CR ∉ value

/-- A request head as the states of `HTTPContext` accept it. -/
structure RequestHead where
  lead : Bytes
  method : Bytes
  blank1 : UInt8
  url : Bytes
  params : List UrlParam
  blank2 : UInt8
  protocol : Bytes
  major : UInt8
  minor : Bytes
  headers : List HeaderLine
  lead_ok : ∀ c ∈ lead, (isblank c || c == CR || c == LF) = true
  method_ne : method ≠ []
  method_ok : ∀ c ∈ method, isupper c = true
  blank1_ok : isblank blank1 = true
  url_ok : ∀ c ∈ url, isInvalidURLChar c = false
  blank2_ok : isblank blank2 = true
  protocol_ne : protocol ≠ []
  protocol_ok : ∀ c ∈ protocol, isupper c = true
  major_ok : isdigit major = true
  minor_ok : ∀ c ∈ minor, (isdigit c || c == 46) = true

namespace RequestHead

/-- The parameters of a URL, each with the byte that ends it: `&`, and a blank after the last. -/
def paramWords (blank : UInt8) : List UrlParam → List Bytes
  | [] => []
  | [p] => [p.key ++ 61 :: p.value ++ [blank]]
  | p :: ps => (p.key ++ 61 :: p.value ++ [38]) :: paramWords blank ps

def headerWords (l : HeaderLine) : List Bytes :=
  [l.key ++ 58 :: l.blank :: l.value ++ [CR], [LF]]

/-- The head in the pieces the parser cuts it into: each word with the byte that ends it. -/
def words (h : RequestHead) : List Bytes :=
  h.lead.map (fun c => [c]) ++
  [h.method ++ [h.blank1], 47 :: h.url ++ [if h.params = [] then h.blank2 else 63]] ++
  paramWords h.blank2 h.params ++
  [h.protocol ++ [47], h.major :: h.minor ++ [CR], [LF]] ++
  h.headers.flatMap headerWords ++
  [[CR, LF]]

def bytes (h : RequestHead) : Bytes := h.words.flatten

/-- The request a head describes. -/
def request (h : RequestHead) : HTTPRequest :=
  let q := (HTTPRequest.new.setMethod h.method).setUrl (47 :: h.url)
  let q := h.params.foldl (fun q p => q.addParam p.key p.value) q
  let q := (q.setProtocol h.protocol).setVersion (h.major :: h.minor)
  h.headers.foldl (fun q l => q.addHeader l.key l.value) q

theorem foldl_addParam (q : HTTPRequest) (ps : List UrlParam) :
    ps.foldl (fun q p => q.addParam p.key p.value) q =
      { q with params := ps.foldl (fun m p => m.insert p.key p.value) q.params } := by
  induction ps generalizing q with
  | nil => rfl
  | cons p ps ih => exact ih (q.addParam p.key p.value)

theorem foldl_addHeader (q : HTTPRequest) (ls : List HeaderLine) :
    ls.foldl (fun q l => q.addHeader l.key l.value) q =
      { q with headers := ls.foldl (fun m l => m.insert l.key l.value) q.headers } := by
  induction ls generalizing q with
  | nil => rfl
  | cons l ls ih => exact ih (q.addHeader l.key l.value)

/-- Each part of the head has its own field. -/
theorem request_eq (h : RequestHead) : h.request =
    { method := (HTTPRequest.new.setMethod h.method).method
      url := 47 :: h.url
      version := (HTTPRequest.new.setVersion (h.major :: h.minor)).version
      protocol := h.protocol
      params := h.params.foldl (fun m p => m.insert p.key p.value) ∅
      headers := h.headers.foldl (fun m l => m.insert l.key l.value) ∅
      body := [] } := by
  unfold request
  rw [foldl_addHeader, foldl_addParam]
  rfl

end RequestHead

/-- The part of a word that a cut at offset `n` splits off: empty where the cut lies between two
words. -/
def carried : List Bytes → Nat → Bytes
  | [], _ => []
  | w :: ws, n => if n < w.length then w.take n else carried ws (n - w.length)

namespace Scan

/-- The scan between two words. -/
def between (st : ParseState) (q : HTTPRequest) : Scan := ⟨st, q, [], 0⟩

/-- Every byte of `w` joins the open word. -/
inductive Grows : Scan → Bytes → Scan → Prop
  | nil {s : Scan} (hs : s.state.inHead) : Grows s [] s
  | cons {s s' : Scan} {c : UInt8} {w : Bytes} (hs : s.state.inHead)
      (hc : (s.next c).word = s.word ++ [c]) (h : Grows (s.next c) w s') : Grows s (c :: w) s'

namespace Grows

theorem feed {s s' : Scan} {w : Bytes} (h : Grows s w s') : s.feed w = s' := by
  induction h with
  | nil hs => rfl
  | cons hs hc h ih => exact ih

theorem take {s s' : Scan} {w : Bytes} (h : Grows s w s') (n : Nat) :
    (s.feed (w.take n)).state.inHead ∧ (s.feed (w.take n)).word = s.word ++ w.take n := by
  induction h generalizing n with
  | nil hs => simpa using hs
  | cons hs hc h ih =>
    cases n with
    | zero => simpa using hs
    | succ n =>
      obtain ⟨hin, hw⟩ := ih n
      refine ⟨hin, ?_⟩
      rw [List.take_succ_cons, feed_cons, hw, hc]
      simp

theorem append {s s1 s2 : Scan} {a b : Bytes} (ha : Grows s a s1) (hb : Grows s1 b s2) :
    Grows s (a ++ b) s2 := by
  induction ha with
  | nil hs => exact hb
  | cons hs hc h ih => exact .cons hs hc (ih hb)

theorem keep {s : Scan} {c : UInt8} {st : ParseState} (hs : s.state.inHead)
    (hn : s.next c = s.keep c st) (hst : st.inHead) : Grows s [c] (s.keep c st) := by
  refine .cons hs (by rw [hn]; rfl) ?_
  rw [hn]
  exact .nil hst

/-- A run of bytes that the state `st` keeps. -/
theorem run {st : ParseState} (hst : st.inHead) (p : UInt8 → Prop)
    (hstep : ∀ (s : Scan) (c : UInt8), s.state = st → p c → s.next c = s.keep c st)
    {s : Scan} (hs : s.state = st) {w : Bytes} (hw : ∀ c ∈ w, p c) :
    Grows s w { s with word := s.word ++ w } := by
  induction w generalizing s with
  | nil =>
    rw [List.append_nil]
    exact .nil (hs ▸ hst)
  | cons c w ih =>
    have hn := hstep s c hs (hw c (by simp))
    refine .cons (hs ▸ hst) (by rw [hn]; rfl) ?_
    rw [hn]
    have hrest := ih (s := s.keep c st) rfl (fun d hd => hw d (by simp [hd]))
    simp only [Scan.keep, ← hs, List.append_assoc, List.singleton_append] at hrest ⊢
    exact hrest

end Grows

/-- The piece `w` is read as one word with its end, from between two words to between two. -/
structure Reads (s : Scan) (w : Bytes) (s' : Scan) : Prop where
  whole : s.feed w = s'
  part : ∀ n < w.length, (s.feed (w.take n)).state.inHead ∧ (s.feed (w.take n)).word = w.take n

theorem Grows.reads {s s1 s2 : Scan} {w : Bytes} {c : UInt8} (h : Grows s w s1)
    (hs : s.word = []) (hc : s1.next c = s2) : Reads s (w ++ [c]) s2 := by
  refine ⟨?_, fun n hn => ?_⟩
  · rw [feed_append, h.feed, feed_cons, feed_nil, hc]
  · have hle : n ≤ w.length := by simpa using Nat.lt_succ_iff.mp (by simpa using hn)
    rw [List.take_append_of_le_length hle]
    simpa [hs] using h.take n

inductive ReadsAll : Scan → List Bytes → Scan → Prop
  | nil {s : Scan} : ReadsAll s [] s
  | cons {s s1 s2 : Scan} {w : Bytes} {ws : List Bytes} (h : Reads s w s1)
      (hs : ReadsAll s1 ws s2) : ReadsAll s (w :: ws) s2

namespace ReadsAll

theorem single {s s' : Scan} {w : Bytes} (h : Reads s w s') : ReadsAll s [w] s' := .cons h .nil

theorem append {s s1 s2 : Scan} {a b : List Bytes} (ha : ReadsAll s a s1) (hb : ReadsAll s1 b s2) :
    ReadsAll s (a ++ b) s2 := by
  induction ha with
  | nil => exact hb
  | cons h hs ih => exact .cons h (ih hb)

theorem feed {s s' : Scan} {ws : List Bytes} (h : ReadsAll s ws s') : s.feed ws.flatten = s' := by
  induction h with
  | nil => rfl
  | cons h hs ih => rw [List.flatten_cons, feed_append, h.whole, ih]

/-- After any part of the pieces, what the scan has of a word is what the cut carries over. -/
theorem take {s s' : Scan} {ws : List Bytes} (h : ReadsAll s ws s') (n : Nat)
    (hn : n < ws.flatten.length) :
    (s.feed (ws.flatten.take n)).state.inHead ∧
      (s.feed (ws.flatten.take n)).word = carried ws n := by
  induction h generalizing n with
  | nil => simp at hn
  | @cons s s1 s2 w ws h hs ih =>
    rw [List.flatten_cons, carried]
    split_ifs with hlt
    · rw [List.take_append_of_le_length hlt.le]
      exact h.part n hlt
    · have hge : w.length ≤ n := by omega
      have hrest : n - w.length < ws.flatten.length := by
        rw [List.flatten_cons, List.length_append] at hn
        omega
      rw [List.take_append, List.take_of_length_le hge, feed_append, h.whole]
      exact ih (n - w.length) hrest

end ReadsAll

end Scan

end MuduoServer

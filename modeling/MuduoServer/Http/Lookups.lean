import MuduoServer.Http.ChunkStates

namespace MuduoServer

section LastValue

variable {α : Type} (key value : α → Bytes)

/-- The value of the last pair with the key `k`, or the empty string. -/
def lastValue (xs : List α) (k : Bytes) : Bytes :=
  ((xs.reverse.find? fun x => key x = k).map value).getD []

/-- Pairs entered one after the other: the last one with a key is found. -/
theorem lookup_foldl_insert (xs : List α) (m : StringMap) (k : Bytes) :
    (xs.foldl (fun m x => m.insert (key x) (value x)) m).lookup k =
      ((xs.reverse.find? fun x => key x = k).map value).or (m.lookup k) := by
  induction xs using List.reverseRecOn with
  | nil => rfl
  | append_singleton xs x ih =>
    rw [List.foldl_append, List.foldl_cons, List.foldl_nil, List.reverse_append,
      List.reverse_singleton, List.singleton_append, List.find?_cons]
    by_cases hk : key x = k
    · rw [hk, AList.lookup_insert]
      simp
    · rw [AList.lookup_insert_ne (Ne.symm hk), ih]
      simp [hk]

theorem lookup_foldl_insert_getD (xs : List α) (k : Bytes) :
    ((xs.foldl (fun m x => m.insert (key x) (value x)) (∅ : StringMap)).lookup k).getD [] =
      lastValue key value xs k := by
  rw [lookup_foldl_insert, AList.lookup_empty, Option.or_none, lastValue]

end LastValue

namespace RequestHead

/-- The value of the last pair `k=value` of the URL. -/
def lastParam (h : RequestHead) : Bytes → Bytes := lastValue UrlParam.key UrlParam.value h.params

/-- The value of the last header line for `k`. -/
def lastHeader (h : RequestHead) : Bytes → Bytes :=
  lastValue HeaderLine.key HeaderLine.value h.headers

/-- The parameters are stored: only the lookup misses them. -/
theorem params_lookup (h : RequestHead) (k : Bytes) :
    (h.request.params.lookup k).getD [] = h.lastParam k := by
  rw [h.request_eq]
  exact lookup_foldl_insert_getD _ _ _ _

theorem headers_lookup (h : RequestHead) (k : Bytes) :
    (h.request.headers.lookup k).getD [] = h.lastHeader k := by
  rw [h.request_eq]
  exact lookup_foldl_insert_getD _ _ _ _

end RequestHead

/-- Both lookups with the key `k` in the request `q` give what the head `h` says. -/
structure LooksUp (h : RequestHead) (q : HTTPRequest) (k : Bytes) : Prop where
  param : q.getParamByKey k = h.lastParam k
  header : q.getHeaderByKey k = h.lastHeader k

theorem Delivers.answers {b : Buffer} {pieces : List Bytes} {q : HTTPRequest}
    (h : Delivers .new b pieces q) : Answers b pieces .complete q := by
  obtain ⟨ss, ctx, b', hfeed, -, hreq, -⟩ := h
  exact ⟨ss, ctx, b', hfeed, hreq⟩

/-- The completed request of a text has the headers and the parameters of its head. -/
theorem Answers.of_head {h : RequestHead} {b : Buffer} (hb : b.Wf) (he : b.toString = [])
    {pieces : List Bytes} (hp : h.bytes <+: pieces.flatten) {q : HTTPRequest}
    (ha : Answers b pieces .complete q) :
    q.headers = h.request.headers ∧ q.params = h.request.params := by
  obtain ⟨ctx, b', hfed, hst, rfl⟩ := ha.fed hb he
  obtain ⟨h', part, hp', hreq⟩ := hfed.of_complete hst
  rw [hreq, RequestHead.request_of_bytes (RequestHead.bytes_unique hp' hp)]
  exact ⟨rfl, rfl⟩

/-- A key is looked up rightly exactly where the last header value for it is the last value that
the URL gives for it: `getParamByKey` looks in the headers. -/
theorem looksUp_iff (h : RequestHead) (b : Buffer) (hb : b.Wf) (he : b.toString = [])
    (pieces : List Bytes) (hp : h.bytes <+: pieces.flatten) (q : HTTPRequest)
    (ha : Answers b pieces .complete q) (k : Bytes) :
    LooksUp h q k ↔ h.lastHeader k = h.lastParam k := by
  obtain ⟨hheaders, -⟩ := ha.of_head hb he hp
  have hlook : (q.headers.lookup k).getD [] = h.lastHeader k := by
    rw [hheaders, h.headers_lookup]
  constructor
  · intro hl
    rw [← hl.param, ← hlook]
    rfl
  · intro heq
    exact ⟨hlook.trans heq, hlook⟩

/-- `GET /?a=b HTTP/1.1` and no header line. -/
def WireRequest.query : WireRequest where
  head := { getHead [] with
    params := [⟨MuduoServer.bytes "a", MuduoServer.bytes "b", ⟨by decide, by decide +kernel⟩,
      by decide, by decide +kernel⟩] }
  body := []
  framed := by decide +kernel
  fits := by decide +kernel

section Query

open WireRequest (query)

theorem answers_query : Answers .default [query.bytes] .complete query.request := by
  apply Delivers.answers
  rw [delivers_new query query.request [query.bytes] (by decide +kernel) (by simp)
    Buffer.default_wf Buffer.default_toString]
  exact ⟨rfl, by decide +kernel, by decide +kernel⟩

/-- A key that is neither a parameter's nor a header line's. -/
theorem looksUp_query : LooksUp query.head query.request (bytes "Host") :=
  (looksUp_iff query.head .default Buffer.default_wf Buffer.default_toString [query.bytes]
    ⟨[], by simp [WireRequest.bytes, query]⟩ query.request answers_query (bytes "Host")).mpr
    (by decide +kernel)

/-- The URL gives `b` for the key `a`, and the lookup finds nothing. -/
theorem query_param_lost : Answers .default [query.bytes] .complete query.request ∧
    query.request.getParamByKey (bytes "a") = [] ∧ query.head.lastParam (bytes "a") = bytes "b" ∧
    ¬LooksUp query.head query.request (bytes "a") := by
  have hlost : query.request.getParamByKey (bytes "a") = [] := by decide +kernel
  have hgiven : query.head.lastParam (bytes "a") = bytes "b" := by decide +kernel
  refine ⟨answers_query, hlost, hgiven, fun hl => ?_⟩
  have hparam := hl.param
  rw [hlost, hgiven] at hparam
  exact absurd hparam (by decide)

end Query

end MuduoServer

import MuduoServer.Http.HeadPrefix
import MuduoServer.Http.Pipelining

namespace MuduoServer

open HTTPContext

namespace RequestHead

/-- The parts of a head, each with the code for an error in it: the method with what precedes it,
the URL with its parameters, the protocol with the version, the header lines, and the line feeds
that end the lines. The carriage return of the blank line stands where a header line could. -/
def components (h : RequestHead) : List (Bytes × ParseState) :=
  [(h.lead ++ h.method ++ [h.blank1], .invalidMethod),
    (47 :: h.url ++ [if h.params = [] then h.blank2 else 63], .invalidUrl)] ++
  (paramWords h.blank2 h.params).map (fun w => (w, .invalidUrl)) ++
  [(h.protocol ++ [47], .invalidProtocol), (h.major :: h.minor ++ [CR], .invalidProtocol),
    ([LF], .invalidCrlf)] ++
  h.headers.flatMap (fun l =>
    [(l.key ++ 58 :: l.blank :: l.value ++ [CR], .invalidHeader), ([LF], .invalidCrlf)]) ++
  [([CR], .invalidHeader), ([LF], .invalidCrlf)]

/-- For each byte of a head the code of its component. -/
def codes (h : RequestHead) : List ParseState :=
  h.components.flatMap fun w => List.replicate w.1.length w.2

theorem components_bytes (h : RequestHead) : (h.components.map Prod.fst).flatten = h.bytes := by
  have hlead : (h.lead.map fun c => [c]).flatten = h.lead := by
    rw [← List.flatMap_def, List.flatMap_singleton']
  have hlines : ∀ ls : List HeaderLine, ((ls.flatMap fun l =>
      [(l.key ++ 58 :: l.blank :: l.value ++ [CR], ParseState.invalidHeader),
        ([LF], ParseState.invalidCrlf)]).map Prod.fst) = ls.flatMap headerWords := by
    intro ls
    rw [List.map_flatMap]
    rfl
  have hparams : ∀ ws : List Bytes,
      (ws.map fun w => (w, ParseState.invalidUrl)).map Prod.fst = ws := by
    intro ws
    rw [List.map_map]
    exact List.map_id ws
  simp only [components, bytes, words, List.map_append, hlines, hparams, List.flatten_append, hlead]
  simp

end RequestHead

/-- The codes with which the automaton would refuse a byte, at each place of a text. -/
def refusals : ParseState → Bytes → List ParseState
  | _, [] => []
  | st, c :: w => st.refusal :: refusals (st.next c) w

theorem refusals_append (st : ParseState) (v w : Bytes) :
    refusals st (v ++ w) = refusals st v ++ refusals (v.foldl ParseState.next st) w := by
  induction v generalizing st with
  | nil => rfl
  | cons c v ih => rw [List.cons_append, refusals, ih, refusals, List.cons_append, List.foldl_cons]

theorem refusals_getElem (st : ParseState) (v x : Bytes) (hx : x ≠ []) :
    (refusals st (v ++ x))[v.length]? = some (v.foldl ParseState.next st).refusal := by
  have hlen : ∀ (st : ParseState) (w : Bytes), (refusals st w).length = w.length := by
    intro st w
    induction w generalizing st with
    | nil => rfl
    | cons c w ih => rw [refusals, List.length_cons, ih, List.length_cons]
  rw [refusals_append, List.getElem?_append_right (by rw [hlen]), hlen, Nat.sub_self]
  obtain ⟨c, x, rfl⟩ := List.exists_cons_of_ne_nil hx
  rfl

/-- A piece of text in which the automaton refuses with one code only. -/
structure Passes (st : ParseState) (w : Bytes) (code st' : ParseState) : Prop where
  codes : refusals st w = List.replicate w.length code
  ends : w.foldl ParseState.next st = st'

namespace Passes

variable {st st1 st2 code : ParseState} {v w : Bytes} {c : UInt8}

theorem nil : Passes st [] code st := ⟨rfl, rfl⟩

theorem append (hv : Passes st v code st1) (hw : Passes st1 w code st2) :
    Passes st (v ++ w) code st2 := by
  refine ⟨?_, ?_⟩
  · rw [refusals_append, hv.ends, hv.codes, hw.codes, List.length_append, List.replicate_add]
  · rw [List.foldl_append, hv.ends, hw.ends]

theorem cons (hcode : st.refusal = code) (hc : st.next c = st1) (h : Passes st1 w code st2) :
    Passes st (c :: w) code st2 := by
  refine ⟨?_, ?_⟩
  · rw [refusals, hcode, hc, h.codes]
    rfl
  · rw [List.foldl_cons, hc, h.ends]

/-- Bytes that the state keeps. -/
theorem run (hcode : st.refusal = code) (hw : ∀ c ∈ w, st.next c = st) : Passes st w code st := by
  induction w with
  | nil => exact nil
  | cons c w ih => exact cons hcode (hw c (by simp)) (ih fun d hd => hw d (by simp [hd]))

end Passes

inductive PassesAll : ParseState → List (Bytes × ParseState) → ParseState → Prop
  | nil {st : ParseState} : PassesAll st [] st
  | cons {st st1 st2 code : ParseState} {w : Bytes} {ws : List (Bytes × ParseState)}
      (h : Passes st w code st1) (hs : PassesAll st1 ws st2) : PassesAll st ((w, code) :: ws) st2

namespace PassesAll

variable {st st1 st2 : ParseState} {vs ws : List (Bytes × ParseState)}

theorem append (hv : PassesAll st vs st1) (hw : PassesAll st1 ws st2) :
    PassesAll st (vs ++ ws) st2 := by
  induction hv with
  | nil => exact hw
  | cons h hs ih => exact .cons h (ih hw)

theorem codes (h : PassesAll st ws st1) : refusals st (ws.map Prod.fst).flatten =
    ws.flatMap fun w => List.replicate w.1.length w.2 := by
  induction h with
  | nil => rfl
  | cons h hs ih =>
    rw [List.map_cons, List.flatten_cons, refusals_append, h.ends, ih, h.codes, List.flatMap_cons]

end PassesAll

section Components

open ParseState

/-- A word of upper-case letters, of which the first opens it. -/
theorem passes_upper {open' st code : ParseState} {w : Bytes} (hopen : open'.refusal = code)
    (hcode : st.refusal = code) (hfirst : ∀ c, isupper c = true → open'.next c = st)
    (hrest : ∀ c, isupper c = true → st.next c = st) (hne : w ≠ [])
    (hw : ∀ c ∈ w, isupper c = true) : Passes open' w code st := by
  obtain ⟨c, cs, rfl⟩ := List.exists_cons_of_ne_nil hne
  exact .cons hopen (hfirst c (hw c (by simp)))
    (.run hcode fun d hd => hrest d (hw d (by simp [hd])))

/-- A non-empty word of URL characters. -/
theorem passes_urlWord {first st : ParseState} {w : Bytes} (hfst : first.refusal = .invalidUrl)
    (hcode : st.refusal = .invalidUrl)
    (hfirst : ∀ c, isInvalidURLChar c = false → first.next c = st)
    (hrest : ∀ c, isInvalidURLChar c = false → st.next c = st) (hw : IsUrlWord w) :
    Passes first w .invalidUrl st := by
  obtain ⟨c, cs, rfl⟩ := List.exists_cons_of_ne_nil hw.1
  exact .cons hfst (hfirst c (hw.2 c (by simp)))
    (.run hcode fun d hd => hrest d (hw.2 d (by simp [hd])))

theorem passes_method (h : RequestHead) :
    Passes .start (h.lead ++ h.method ++ [h.blank1]) .invalidMethod .beforeUrl := by
  have hlead : Passes .start h.lead .invalidMethod .start := by
    refine .run rfl ?_
    intro c hc
    simp [ParseState.next, Scan.next, h.lead_ok c hc]
  have hmethod : Passes .start h.method .invalidMethod .method := by
    refine passes_upper rfl rfl ?_ ?_ h.method_ne h.method_ok
    · intro c hc
      simp [ParseState.next, Scan.next, isupper_not_lead hc, hc]
    · intro c hc
      simp [ParseState.next, Scan.next, hc, Scan.keep]
  have hblank : ParseState.method.next h.blank1 = .beforeUrl := by
    simp [ParseState.next, Scan.next, h.blank1_ok, isblank_not_upper h.blank1_ok, Scan.cut]
  exact (hlead.append hmethod).append (.cons rfl hblank .nil)

theorem passes_url {w : Bytes} (hw : ∀ c ∈ w, isInvalidURLChar c = false) :
    Passes .beforeUrl (47 :: w) .invalidUrl .url := by
  refine .cons rfl rfl (.run rfl ?_)
  intro c hc
  simp [ParseState.next, Scan.next, hw c hc, urlChar_not_end (hw c hc), Scan.keep]

/-- A pair, without the byte that ends it. -/
theorem passes_param (q : UrlParam) :
    Passes .beforeUrlParamKey (q.key ++ 61 :: q.value) .invalidUrl .urlParamValue := by
  have hkey : Passes .beforeUrlParamKey q.key .invalidUrl .urlParamKey := by
    refine passes_urlWord rfl rfl ?_ ?_ q.key_ok
    · intro c hc
      simp [ParseState.next, Scan.next, hc, Scan.keep]
    · intro c hc
      simp [ParseState.next, Scan.next, hc, urlChar_not_end hc, Scan.keep]
  have hvalue : Passes .beforeUrlParamValue q.value .invalidUrl .urlParamValue := by
    refine passes_urlWord rfl rfl ?_ ?_ q.value_ok
    · intro c hc
      simp [ParseState.next, Scan.next, hc, Scan.keep]
    · intro c hc
      simp [ParseState.next, Scan.next, hc, urlChar_not_end hc, Scan.keep]
  exact hkey.append (.cons rfl rfl hvalue)

theorem passesAll_params {blank : UInt8} (hblank : isblank blank = true) (qs : List UrlParam)
    (hne : qs ≠ []) : PassesAll .beforeUrlParamKey
      ((RequestHead.paramWords blank qs).map fun w => (w, .invalidUrl)) .beforeProtocol := by
  induction qs with
  | nil => exact absurd rfl hne
  | cons q qs ih =>
    cases qs with
    | nil =>
      have hend : ParseState.urlParamValue.next blank = .beforeProtocol := by
        simp [ParseState.next, Scan.next, hblank, isblank_not_upper hblank, Scan.cut]
      exact .cons ((passes_param q).append (.cons rfl hend .nil)) .nil
    | cons q' qs =>
      exact .cons ((passes_param q).append (.cons rfl rfl .nil)) (ih (by simp))

theorem passesAll_url (h : RequestHead) : PassesAll .beforeUrl
    ((47 :: h.url ++ [if h.params = [] then h.blank2 else 63], .invalidUrl) ::
      (RequestHead.paramWords h.blank2 h.params).map fun w => (w, .invalidUrl))
    .beforeProtocol := by
  have hurl := passes_url h.url_ok
  by_cases hp : h.params = []
  · have hend : ParseState.url.next h.blank2 = .beforeProtocol := by
      simp [ParseState.next, Scan.next, h.blank2_ok, isblank_not_upper h.blank2_ok, Scan.cut]
    rw [if_pos hp, hp]
    exact .cons (hurl.append (.cons rfl hend .nil)) .nil
  · rw [if_neg hp]
    exact .cons (hurl.append (.cons rfl rfl .nil)) (passesAll_params h.blank2_ok h.params hp)

theorem passesAll_version (h : RequestHead) : PassesAll .beforeProtocol
    [(h.protocol ++ [47], .invalidProtocol), (h.major :: h.minor ++ [CR], .invalidProtocol),
      ([LF], .invalidCrlf)] .crLf := by
  have hprotocol : Passes .beforeProtocol h.protocol .invalidProtocol .protocol := by
    refine passes_upper rfl rfl ?_ ?_ h.protocol_ne h.protocol_ok
    · intro c hc
      simp [ParseState.next, Scan.next, hc]
    · intro c hc
      simp [ParseState.next, Scan.next, hc, Scan.keep]
  have hmajor : ParseState.beforeVersion.next h.major = .version := by
    simp [ParseState.next, Scan.next, h.major_ok, Scan.keep]
  have hminor : Passes .version h.minor .invalidProtocol .version := by
    refine .run rfl ?_
    intro c hc
    have hcr := versionChar_not_cr (h.minor_ok c hc)
    simp only [ParseState.next, Scan.next, hcr, Bool.false_eq_true, if_false, h.minor_ok c hc,
      if_true, Scan.keep]
  have hversion :
      Passes .beforeVersion (h.major :: h.minor ++ [CR]) .invalidProtocol .encounterCr :=
    (Passes.cons rfl hmajor hminor).append (.cons rfl rfl .nil)
  exact .cons (hprotocol.append (.cons rfl rfl .nil))
    (.cons hversion (.cons (.cons rfl rfl .nil) .nil))

theorem passes_header (l : HeaderLine) :
    Passes .crLf (l.key ++ 58 :: l.blank :: l.value ++ [CR]) .invalidHeader .encounterCr := by
  have hkey : Passes .crLf l.key .invalidHeader .headerKey := by
    have hok := l.key_ok
    have hcolon := l.key_colon
    obtain ⟨k, ks, hk⟩ := List.exists_cons_of_ne_nil l.key_ne
    rw [hk] at hok hcolon ⊢
    have hk0 := hok k (by simp)
    have hfirst : ParseState.crLf.next k = .headerKey := by
      simp [ParseState.next, Scan.next, hk0, headerKeyChar_not_cr hk0, Scan.keep]
    refine .cons rfl hfirst (.run rfl ?_)
    intro c hc
    have hne : (c == 58) = false := by
      rw [beq_eq_false_iff_ne]
      rintro rfl
      exact hcolon hc
    simp [ParseState.next, Scan.next, hne, hok c (by simp [hc]), Scan.keep]
  have hblank : ParseState.beforeHeaderValue.next l.blank = .headerValue := by
    simp [ParseState.next, Scan.next, l.blank_ok, Scan.keep]
  have hvalue : Passes .headerValue l.value .invalidHeader .headerValue := by
    refine .run rfl ?_
    intro c hc
    have hne : (c == CR) = false := by
      rw [beq_eq_false_iff_ne]
      rintro rfl
      exact l.value_ok hc
    simp only [ParseState.next, Scan.next, hne, Bool.false_eq_true, if_false, Scan.keep]
  have hmark : ParseState.headerKey.next 58 = .beforeHeaderValue := rfl
  exact (hkey.append (.cons rfl hmark (.cons rfl hblank hvalue))).append (.cons rfl rfl .nil)

theorem passesAll_headers (ls : List HeaderLine) : PassesAll .crLf (ls.flatMap fun l =>
    [(l.key ++ 58 :: l.blank :: l.value ++ [CR], .invalidHeader), ([LF], .invalidCrlf)]) .crLf := by
  induction ls with
  | nil => exact .nil
  | cons l ls ih =>
    rw [List.flatMap_cons]
    exact (PassesAll.cons (passes_header l) (.cons (.cons rfl rfl .nil) .nil)).append ih

/-- Inside a head the automaton refuses a byte with the code of the component it lies in. -/
theorem refusals_head (h : RequestHead) : refusals .start h.bytes = h.codes := by
  have hblankLine : PassesAll .crLf [([CR], .invalidHeader), ([LF], .invalidCrlf)] .body :=
    .cons (.cons rfl rfl .nil) (.cons (.cons rfl rfl .nil) .nil)
  have hline := PassesAll.cons (passes_method h) (passesAll_url h)
  have hhead := ((hline.append (passesAll_version h)).append (passesAll_headers h.headers)).append
    hblankLine
  rw [← h.components_bytes]
  exact hhead.codes

end Components

/-- A byte that is refused takes the loop to the state of the error. -/
theorem parseChar_refused {t : Text} {l : Locals} {s : Scan} {c : UInt8}
    (hst : l.ctx.state = s.state) (size : Nat) (fin : Int) (hin : s.state.inHead)
    (hn : (s.next c).state.isInvalid) :
    parseChar t size fin l c = some (l.goto (s.next c).state) := by
  revert hn
  unfold parseChar Scan.next
  rw [hst]
  cases hs : s.state
  all_goals
    rw [hs] at hin
    dsimp only
    (try split_ifs) <;> intro hn
  all_goals first
    | rfl
    | exact absurd hin (by decide)
    | simp [hs, Scan.keep, Scan.mark, Scan.cut, ParseState.isInvalid, ParseState.value] at hn

/-- The call in which the automaton refuses a byte returns the code of the error. -/
theorem parseRequest_error {ctx : HTTPContext} {s : Scan} (h : Resumes ctx s) {b : Buffer}
    {p rest : Bytes} {c : UInt8} (hs : b.toString = p ++ c :: rest)
    (hin : (s.feed p).state.inHead) (hn : ((s.feed p).next c).state.isInvalid) :
    ∃ ctx', parseRequest ctx b = some (((s.feed p).next c).state, ctx', b.retrieveAll) := by
  obtain ⟨hbuf, hcur, htext, htr⟩ := enter_tracks h b
  rw [← hbuf, hs] at htr
  obtain ⟨l, hb, htr', hloop⟩ := parseLoop_tracks (enter ctx b).1 b.readableBytes p (c :: rest)
    (enter ctx b).2 s htr h.ok hin
  rw [← hb] at htr'
  obtain ⟨hlt, hget⟩ := htr'.cur_lt
  have hun : l.ctx.state.unfinished := by
    rw [htr'.state]
    exact ParseState.inHead_unfinished hin
  have hstop : (l.goto ((s.feed p).next c).state).advance.ctx.state.unfinished = false := by
    change ((s.feed p).next c).state.unfinished = false
    revert hn
    cases ((s.feed p).next c).state <;> decide
  have hlen : b.toString.length = p.length + (rest.length + 1) := by
    rw [hs, List.length_append, List.length_cons]
  refine ⟨(l.goto ((s.feed p).next c).state).advance.ctx, ?_⟩
  rw [parseRequest_eq hbuf hcur htext, hlen, hloop, parseLoop_succ _ _ hun hlt hget,
    parseChar_refused htr'.state _ _ hin hn, Option.bind_some, parseLoop_stop _ _ (.inl hstop),
    Option.bind_some, finish, saveSnapshot, hstop, ← hbuf, ← hb]
  rfl

/-- The call in which a head ends has its request; what follows is the body, or part of it. -/
theorem parseRequest_accepted (h : RequestHead) {b : Buffer} (hb : b.Wf) {rest : Bytes}
    (hs : b.toString = h.bytes ++ rest) (hlt : rest.length < sizeTop) :
    ∃ st ctx b' body, parseRequest .new b = some (st, ctx, b') ∧
      (st = .complete ∨ st = .body) ∧ ctx.request = h.request.appendBody body := by
  obtain ⟨p, hp, hst, hreq⟩ := h.scan_end
  have hcs : b.toString = p ++ LF :: rest := by
    rw [hs, hp]
    simp
  by_cases hrest : rest = []
  · by_cases hq : h.request.hasLength ∧ h.request.bodyBytes ≠ 0
    · obtain ⟨ctx, hparse, hbody⟩ := parseRequest_awaitBody resumes_new hb hcs hst hrest
        (by rw [hreq]; exact hq.1) (by rw [hreq]; exact hq.2)
      exact ⟨.body, ctx, _, [], hparse, .inr rfl, by rw [hbody.request, hreq]; simp⟩
    · obtain ⟨ctx, hparse, hctx⟩ := parseRequest_bodiless resumes_new hb hcs hst hrest
        (by rw [hreq]; exact hq)
      exact ⟨.complete, ctx, _, [], hparse, .inl rfl, by rw [hctx, hreq]; simp⟩
  · rcases Nat.lt_trichotomy rest.length h.request.bodyBytes with hmore | hexact | hless
    · obtain ⟨ctx, hparse, hbody⟩ := parseRequest_bodyPart resumes_new hb hcs hst rfl hrest hlt
        (by rw [hreq]; exact hmore)
      exact ⟨.body, ctx, _, rest, hparse, .inr rfl, by rw [hbody.request, hreq]⟩
    · obtain ⟨ctx, hparse, hctx⟩ := parseRequest_bodyWhole resumes_new hb hcs hst rfl hrest hlt
        (by rw [hreq]; exact hexact.symm)
      exact ⟨.complete, ctx, _, rest, hparse, .inl rfl, by rw [hctx, hreq]⟩
    · obtain ⟨ctx, b', body, hparse, hctx, -⟩ := parseRequest_surplus resumes_new hb hcs hst hlt
        rfl (by rw [hreq]; exact hless)
      exact ⟨.complete, ctx, b', body, hparse, .inl rfl, by rw [hctx, hreq]⟩

theorem ParseState.refusal_isInvalid {st : ParseState} (h : st.inHead) :
    st.refusal.isInvalid = true := by
  revert h
  cases st <;> decide

/-- At the place behind `p` every head that begins with `p` has the component of the automaton's
state. -/
theorem RequestHead.codes_getElem (h : RequestHead) {p : Bytes} (hp : p <+: h.bytes)
    (hne : p ∉ heads) :
    h.codes[p.length]? = some (p.foldl ParseState.next .start).refusal := by
  obtain ⟨x, hx⟩ := hp
  rw [← refusals_head, ← hx]
  apply refusals_getElem .start p x
  rintro rfl
  exact hne ⟨h, by rw [← hx, List.append_nil]⟩

/-- On one buffer the automaton of the parser is the grammar of the heads. On a text without a head
that no head begins with, the call returns the code of the component in which the last byte of the
shortest such beginning lies; on the beginning of a head it waits for more; and after a head its
request is there, with some body. -/
theorem parser_decides_heads (b : Buffer) (hb : b.Wf) :
    ((∀ p, p <+: b.toString → p ∉ heads) → (∃ q, q <+: b.toString ∧ ¬Begins heads q) →
      ∃ p c code ctx b', p ++ [c] <+: b.toString ∧ Begins heads p ∧ ¬Begins heads (p ++ [c]) ∧
        (∀ h : RequestHead, p <+: h.bytes → h.codes[p.length]? = some code) ∧
        code.isInvalid = true ∧ parseRequest .new b = some (code, ctx, b')) ∧
    ((∀ p, p <+: b.toString → p ∉ heads) → Begins heads b.toString →
      ∃ st ctx, st.inHead = true ∧ parseRequest .new b = some (st, ctx, b.retrieveAll)) ∧
    ∀ (h : RequestHead) (rest : Bytes), b.toString = h.bytes ++ rest → rest.length < sizeTop →
      ∃ st ctx b' body, parseRequest .new b = some (st, ctx, b') ∧
        (st = .complete ∨ st = .body) ∧ ctx.request = h.request.appendBody body := by
  refine ⟨?_, ?_, ?_⟩
  · rintro hno ⟨q, hq, hdead⟩
    obtain ⟨p, c, hpre, hbegins, hnot, hlive, hnext, hdone⟩ :=
      decides_heads.first_error begins_nil hno fun hb => hdead (hb.mono hq)
    have hp : p ∉ heads := hno p ((List.prefix_append p [c]).trans hpre)
    have hrefused := ParseState.next_refusal hlive hnext hdone
    have hstate : ((Scan.init.feed p).next c).state = (p.foldl ParseState.next .start).refusal := by
      rw [Scan.next_state, Scan.feed_state]
      exact hrefused
    have hin : (Scan.init.feed p).state.inHead := by
      rw [Scan.feed_state]
      exact hlive
    have hinvalid := ParseState.refusal_isInvalid hlive
    obtain ⟨rest, hrest⟩ := hpre
    have htext : b.toString = p ++ c :: rest := by
      rw [← hrest]
      simp
    obtain ⟨ctx, hparse⟩ :=
      parseRequest_error resumes_new htext hin (by rw [hstate]; exact hinvalid)
    rw [hstate] at hparse
    exact ⟨p, c, _, ctx, _, ⟨rest, hrest⟩, hbegins, hnot, fun h hh => h.codes_getElem hh hp,
      hinvalid, hparse⟩
  · intro hno hbegins
    have hlive := decides_heads.live_of_begins (hno _ List.prefix_rfl) hbegins
    have hin : (Scan.init.feed b.toString).state.inHead := by
      rw [Scan.feed_state]
      exact hlive
    obtain ⟨ctx, hparse, -⟩ := parseRequest_head resumes_new hin
    exact ⟨_, ctx, hin, hparse⟩
  · intro h rest hs hlt
    exact parseRequest_accepted h hb hs hlt

/-- A URL that does not begin with a slash. -/
theorem parser_decides_heads_noSlash :
    ∃ code ctx b', code.isInvalid = true ∧
      parseRequest .new (Buffer.default.append (bytes "GET x")) = some (code, ctx, b') := by
  obtain ⟨hwf, hs, -⟩ := Buffer.append_spec _ Buffer.default_wf (bytes "GET x")
  have htext : (Buffer.default.append (bytes "GET x")).toString = bytes "GET x" := by
    rw [hs, Buffer.default_toString, List.nil_append]
  have herror := (parser_decides_heads _ hwf).1
  rw [htext] at herror
  obtain ⟨p, c, code, ctx, b', -, -, -, -, hinvalid, hparse⟩ := herror
    (by
      intro p hp hhead
      have hwhole := decides_heads.whole p hhead
      rw [List.prefix_iff_eq_take.mp hp] at hwhole
      have hle := hp.length_le
      have hnone : ∀ n ≤ 5, ((bytes "GET x").take n).foldl ParseState.next .start ≠ .body := by
        decide
      exact hnone p.length hle hwhole)
    ⟨_, List.prefix_rfl, decides_heads.not_begins (by decide) (by decide)⟩
  exact ⟨code, ctx, b', hinvalid, hparse⟩

end MuduoServer

import MuduoServer.Http.Scanner

namespace MuduoServer

open HTTPContext

/-- `++cur` at the end of a round. -/
def Locals.advance (l : Locals) : Locals := { l with cur := l.cur + 1 }

@[simp] theorem Locals.advance_buf (l : Locals) : l.advance.buf = l.buf := rfl

theorem Locals.goto_self {l : Locals} {s : ParseState} (h : l.ctx.state = s) : l.goto s = l := by
  subst h
  rfl

/-- The locals of `parseRequest` stand for the scan `s`, with `rest` still to be read: the word
lies in the text from `start` to `cur`, its separator at `colon`. -/
structure Tracks (text rest : Bytes) (l : Locals) (s : Scan) : Prop where
  state : l.ctx.state = s.state
  request : l.ctx.request = s.request
  contentLength : l.ctx.contentLength = npos
  inside : 0 ≤ l.start ∧ l.start ≤ l.cur
  place : ∃ pre : Bytes, text = pre ++ s.word ++ rest ∧
    l.cur = (pre.length + s.word.length : Nat) ∧
    (s.state ≠ .start → l.start = pre.length) ∧
    (s.state.afterColon → l.colon = (pre.length + s.colon : Nat))

namespace Tracks

variable {text rest : Bytes} {l : Locals} {s : Scan} {c : UInt8}

theorem cur_lt (h : Tracks text (c :: rest) l s) :
    l.cur < text.length ∧ text[l.cur.toNat]? = some c := by
  obtain ⟨pre, ht, hc, -, -⟩ := h.place
  have hn : l.cur.toNat = (pre ++ s.word).length := by
    rw [hc, Int.toNat_natCast, List.length_append]
  rw [hn, ht, List.getElem?_append_right (le_refl _)]
  simp only [Nat.sub_self, List.length_append, List.length_cons]
  exact ⟨by omega, rfl⟩

theorem cur_end (h : Tracks text [] l s) : l.cur = text.length := by
  obtain ⟨pre, ht, hc, -, -⟩ := h.place
  rw [hc, ht]
  simp

theorem word_string {t : Text} (h : Tracks (t.bytes l.buf) rest l s) (hs : s.state ≠ .start) :
    t.string l.buf l.start l.cur = some s.word := by
  obtain ⟨pre, ht, hc, hst, -⟩ := h.place
  rw [Text.string, ht, hst hs, hc]
  exact Slice.range?_whole pre s.word rest

theorem key_string {t : Text} (h : Tracks (t.bytes l.buf) rest l s) (ok : s.Ok)
    (hs : s.state.afterColon) : t.string l.buf l.start l.colon = some s.key := by
  obtain ⟨pre, ht, -, hst, hco⟩ := h.place
  have hne : s.state ≠ .start := by intro he; simp [he, ParseState.afterColon] at hs
  have hlt := ok.colon_lt hs
  rw [Text.string, ht, hst hne, hco hs]
  exact Slice.range?_middle pre s.word rest 0 s.colon (Nat.zero_le _) hlt.le

theorem value_string {t : Text} (h : Tracks (t.bytes l.buf) rest l s) (hs : s.state.afterColon)
    (gap : Nat) (hgap : s.colon + gap ≤ s.word.length) :
    t.string l.buf (l.colon + gap) l.cur = some (s.value gap) := by
  obtain ⟨pre, ht, hc, -, hco⟩ := h.place
  have hpos : l.colon + gap = (pre.length + (s.colon + gap) : Nat) := by rw [hco hs]; omega
  have hr := Slice.range?_middle pre s.word rest (s.colon + gap) s.word.length hgap (le_refl _)
  rw [Text.string, ht, hpos, hc, hr, List.take_length]
  rfl

theorem keep (h : Tracks text (c :: rest) l s) (hs : s.state ≠ .start) (st : ParseState)
    (hst : st.afterColon → s.state.afterColon) :
    Tracks text rest (l.goto st).advance (s.keep c st) := by
  obtain ⟨pre, ht, hc, hstart, hco⟩ := h.place
  have hin := h.inside
  refine ⟨rfl, h.request, h.contentLength, ⟨hin.1, ?_⟩, pre, ?_, ?_, fun _ => hstart hs,
    fun ha => hco (hst ha)⟩
  · simp only [Locals.advance, Locals.goto]
    omega
  · simp [Scan.keep, ht]
  · simp only [Locals.advance, Locals.goto, Scan.keep, hc, List.length_append,
      List.length_singleton]
    omega

theorem mark (h : Tracks text (c :: rest) l s) (hs : s.state ≠ .start) (st : ParseState) :
    Tracks text rest { l.goto st with colon := l.cur }.advance (s.mark c st) := by
  obtain ⟨pre, ht, hc, hstart, -⟩ := h.place
  have hin := h.inside
  refine ⟨rfl, h.request, h.contentLength, ⟨hin.1, ?_⟩, pre, ?_, ?_, fun _ => hstart hs,
    fun _ => hc⟩
  · simp only [Locals.advance, Locals.goto]
    omega
  · simp [Scan.mark, ht]
  · simp only [Locals.advance, Locals.goto, Scan.mark, hc, List.length_append,
      List.length_singleton]
    omega

theorem cut (h : Tracks text (c :: rest) l s) (st : ParseState) (hst : st.afterColon = false)
    (f : HTTPRequest → HTTPRequest) :
    Tracks text rest (((l.goto st).onRequest f).startNext).advance (s.cut st f) := by
  obtain ⟨pre, ht, hc, -, -⟩ := h.place
  refine ⟨rfl, ?_, h.contentLength, ?_, pre ++ s.word ++ [c], ?_, ?_, ?_, ?_⟩
  · simp only [Locals.startNext, Locals.onRequest, Locals.goto, Scan.cut, Locals.advance, h.request]
  · simp only [Locals.startNext, Locals.onRequest, Locals.goto, Locals.advance]
    omega
  · simp [Scan.cut, ht]
  · simp only [Locals.startNext, Locals.onRequest, Locals.goto, Scan.cut, Locals.advance, hc,
      List.length_append, List.length_singleton, List.length_nil]
    omega
  · intro _
    simp only [Locals.startNext, Locals.onRequest, Locals.goto, Locals.advance, hc,
      List.length_append, List.length_singleton]
    omega
  · intro ha
    simp only [Scan.cut] at ha
    simp [hst] at ha

/-- The first byte of a word that has no mark before it. -/
theorem first (h : Tracks text (c :: rest) l s) (hw : s.word = []) (st : ParseState)
    (hst : st.afterColon = false) :
    Tracks text rest { l.goto st with start := l.cur }.advance
      { s with state := st, word := [c] } := by
  obtain ⟨pre, ht, hc, -, -⟩ := h.place
  rw [hw] at ht hc
  refine ⟨rfl, h.request, h.contentLength, ?_, pre, ?_, ?_, fun _ => ?_, ?_⟩
  · simp only [Locals.advance, Locals.goto]
    omega
  · simp [ht]
  · simp only [Locals.advance, Locals.goto, hc, List.length_singleton, List.length_nil]
    omega
  · simp [Locals.advance, Locals.goto, hc]
  · intro ha
    simp [hst] at ha

/-- A byte skipped before the method. -/
theorem skip (h : Tracks text (c :: rest) l s) (hs : s.state = .start) (hw : s.word = []) :
    Tracks text rest l.advance s := by
  obtain ⟨pre, ht, hc, -, -⟩ := h.place
  rw [hw] at ht hc
  have hin := h.inside
  refine ⟨h.state, h.request, h.contentLength, ⟨hin.1, ?_⟩, pre ++ [c], ?_, ?_, ?_, ?_⟩
  · simp only [Locals.advance]
    omega
  · simp [hw, ht]
  · simp only [Locals.advance, hc, hw, List.length_append, List.length_singleton, List.length_nil]
    omega
  · exact fun hn => absurd hs hn
  · intro ha
    simp [hs, ParseState.afterColon] at ha

end Tracks

namespace Scan

theorem next_ok {s : Scan} (ok : s.Ok) (c : UInt8) : (s.next c).Ok := by
  rw [next]
  cases hs : s.state with
  | beforeUrlParamValue | urlParamValue | headerValue =>
    have hlt := ok.colon_lt (by simp [hs, ParseState.afterColon])
    have hgap := ok.gap
    dsimp only
    split_ifs <;> constructor
    all_goals simp_all [keep, cut, fail, ParseState.afterColon]
    all_goals omega
  | beforeHeaderValue =>
    have hlt := ok.colon_lt (by simp [hs, ParseState.afterColon])
    dsimp only
    split_ifs <;> constructor
    all_goals simp_all [keep, fail, ParseState.afterColon]
    all_goals omega
  | _ =>
    have hw := ok.closed
    dsimp only
    (try split_ifs) <;> constructor
    all_goals simp_all [keep, mark, cut, fail, ParseState.afterColon]

theorem feed_ok {s : Scan} (ok : s.Ok) (cs : Bytes) : (s.feed cs).Ok := by
  induction cs generalizing s with
  | nil => exact ok
  | cons c cs ih => exact ih (next_ok ok c)

end Scan

theorem Scan.fail_elim (s : Scan) {st : ParseState} {p : Prop} (h : st.isInvalid)
    (hn : (s.fail st).state.inHead) : p := by
  have hf : (s.fail st).state.inHead = false := ParseState.isInvalid_not_inHead h
  rw [hf] at hn
  cases hn

theorem Tracks.stay {text rest : Bytes} {l : Locals} {s : Scan} {c : UInt8} {st : ParseState}
    (h : Tracks text (c :: rest) l s) (hs : s.state = st) (hne : st ≠ .start) :
    Tracks text rest l.advance (s.keep c st) := by
  have hk := h.keep (hs ▸ hne) st (fun ha => hs ▸ ha)
  rwa [Locals.goto_self (h.state.trans hs)] at hk

section Round

variable {t : Text} {rest : Bytes} {l : Locals} {s : Scan} {c : UInt8} {size : Nat} {fin : Int}

/-- A round of the loop that leaves the automaton in the head takes the locals along with it. -/
def RoundTracks (t : Text) (rest : Bytes) (l : Locals) (s : Scan) (c : UInt8) (size : Nat)
    (fin : Int) : Prop :=
  (s.next c).state.inHead → ∃ l', parseChar t size fin l c = some l' ∧ l'.buf = l.buf ∧
    Tracks (t.bytes l.buf) rest l'.advance (s.next c)

theorem Tracks.round_start (h : Tracks (t.bytes l.buf) (c :: rest) l s) (ok : s.Ok)
    (hs : s.state = .start) : RoundTracks t rest l s c size fin := by
  unfold RoundTracks parseChar Scan.next
  rw [h.state, hs]
  have hw := ok.closed (.inl hs)
  dsimp only
  split_ifs
  · exact fun _ => ⟨l, rfl, rfl, h.skip hs hw⟩
  · exact fun _ => ⟨_, rfl, rfl, h.first hw .method rfl⟩
  · exact s.fail_elim rfl

theorem Tracks.round_method (h : Tracks (t.bytes l.buf) (c :: rest) l s)
    (hs : s.state = .method) : RoundTracks t rest l s c size fin := by
  unfold RoundTracks parseChar Scan.next
  rw [h.state, hs]
  have hne : s.state ≠ .start := by simp [hs]
  dsimp only
  split_ifs
  · exact fun _ => ⟨l, rfl, rfl, h.stay hs (by decide)⟩
  · rw [h.word_string hne]
    exact fun _ => ⟨_, rfl, rfl, h.cut _ rfl _⟩
  · exact s.fail_elim rfl

theorem Tracks.round_beforeUrl (h : Tracks (t.bytes l.buf) (c :: rest) l s)
    (hs : s.state = .beforeUrl) : RoundTracks t rest l s c size fin := by
  unfold RoundTracks parseChar Scan.next
  rw [h.state, hs]
  have hne : s.state ≠ .start := by simp [hs]
  dsimp only
  split_ifs
  · exact fun _ => ⟨_, rfl, rfl, h.keep hne .url (by simp [ParseState.afterColon])⟩
  · exact s.fail_elim rfl

theorem Tracks.round_url (h : Tracks (t.bytes l.buf) (c :: rest) l s)
    (hs : s.state = .url) : RoundTracks t rest l s c size fin := by
  unfold RoundTracks parseChar Scan.next
  rw [h.state, hs]
  have hne : s.state ≠ .start := by simp [hs]
  dsimp only
  split_ifs
  · rw [h.word_string hne]
    exact fun _ => ⟨_, rfl, rfl, h.cut _ rfl _⟩
  · rw [h.word_string hne]
    exact fun _ => ⟨_, rfl, rfl, h.cut _ rfl _⟩
  · exact s.fail_elim rfl
  · exact fun _ => ⟨l, rfl, rfl, h.stay hs (by decide)⟩

theorem Tracks.round_beforeUrlParamKey (h : Tracks (t.bytes l.buf) (c :: rest) l s)
    (hs : s.state = .beforeUrlParamKey) : RoundTracks t rest l s c size fin := by
  unfold RoundTracks parseChar Scan.next
  rw [h.state, hs]
  have hne : s.state ≠ .start := by simp [hs]
  dsimp only
  split_ifs
  · exact s.fail_elim rfl
  · exact fun _ => ⟨_, rfl, rfl, h.keep hne .urlParamKey (by simp [ParseState.afterColon])⟩

theorem Tracks.round_urlParamKey (h : Tracks (t.bytes l.buf) (c :: rest) l s)
    (hs : s.state = .urlParamKey) : RoundTracks t rest l s c size fin := by
  unfold RoundTracks parseChar Scan.next
  rw [h.state, hs]
  have hne : s.state ≠ .start := by simp [hs]
  dsimp only
  split_ifs
  · exact fun _ => ⟨_, rfl, rfl, h.mark hne _⟩
  · exact s.fail_elim rfl
  · exact fun _ => ⟨l, rfl, rfl, h.stay hs (by decide)⟩

theorem Tracks.round_beforeUrlParamValue (h : Tracks (t.bytes l.buf) (c :: rest) l s)
    (hs : s.state = .beforeUrlParamValue) : RoundTracks t rest l s c size fin := by
  unfold RoundTracks parseChar Scan.next
  rw [h.state, hs]
  have hne : s.state ≠ .start := by simp [hs]
  dsimp only
  split_ifs
  · exact s.fail_elim rfl
  · exact fun _ => ⟨_, rfl, rfl, h.keep hne .urlParamValue (by simp [hs, ParseState.afterColon])⟩

theorem Tracks.round_urlParamValue (h : Tracks (t.bytes l.buf) (c :: rest) l s) (ok : s.Ok)
    (hs : s.state = .urlParamValue) : RoundTracks t rest l s c size fin := by
  unfold RoundTracks parseChar Scan.next
  rw [h.state, hs]
  have hac : s.state.afterColon := by simp [hs, ParseState.afterColon]
  have hkey := h.key_string ok hac
  have hvalue := h.value_string hac 1 (ok.colon_lt hac)
  push_cast at hvalue
  dsimp only
  split_ifs
  · rw [hkey, hvalue]
    exact fun _ => ⟨_, rfl, rfl, h.cut _ rfl _⟩
  · rw [hkey, hvalue]
    exact fun _ => ⟨_, rfl, rfl, h.cut _ rfl _⟩
  · exact s.fail_elim rfl
  · exact fun _ => ⟨l, rfl, rfl, h.stay hs (by decide)⟩

theorem Tracks.round_beforeProtocol (h : Tracks (t.bytes l.buf) (c :: rest) l s) (ok : s.Ok)
    (hs : s.state = .beforeProtocol) : RoundTracks t rest l s c size fin := by
  unfold RoundTracks parseChar Scan.next
  rw [h.state, hs]
  dsimp only
  split_ifs
  · exact fun _ => ⟨_, rfl, rfl, h.first (ok.closed (.inr hs)) .protocol rfl⟩
  · exact s.fail_elim rfl

theorem Tracks.round_protocol (h : Tracks (t.bytes l.buf) (c :: rest) l s)
    (hs : s.state = .protocol) : RoundTracks t rest l s c size fin := by
  unfold RoundTracks parseChar Scan.next
  rw [h.state, hs]
  have hne : s.state ≠ .start := by simp [hs]
  dsimp only
  split_ifs
  · exact fun _ => ⟨l, rfl, rfl, h.stay hs (by decide)⟩
  · rw [h.word_string hne]
    exact fun _ => ⟨_, rfl, rfl, h.cut _ rfl _⟩
  · exact s.fail_elim rfl

theorem Tracks.round_beforeVersion (h : Tracks (t.bytes l.buf) (c :: rest) l s)
    (hs : s.state = .beforeVersion) : RoundTracks t rest l s c size fin := by
  unfold RoundTracks parseChar Scan.next
  rw [h.state, hs]
  have hne : s.state ≠ .start := by simp [hs]
  dsimp only
  split_ifs
  · exact fun _ => ⟨_, rfl, rfl, h.keep hne .version (by simp [ParseState.afterColon])⟩
  · exact s.fail_elim rfl

theorem Tracks.round_version (h : Tracks (t.bytes l.buf) (c :: rest) l s)
    (hs : s.state = .version) : RoundTracks t rest l s c size fin := by
  unfold RoundTracks parseChar Scan.next
  rw [h.state, hs]
  have hne : s.state ≠ .start := by simp [hs]
  dsimp only
  split_ifs
  · rw [h.word_string hne]
    exact fun _ => ⟨_, rfl, rfl, h.cut _ rfl _⟩
  · exact fun _ => ⟨l, rfl, rfl, h.stay hs (by decide)⟩
  · exact s.fail_elim rfl

theorem Tracks.round_encounterCr (h : Tracks (t.bytes l.buf) (c :: rest) l s)
    (hs : s.state = .encounterCr) : RoundTracks t rest l s c size fin := by
  unfold RoundTracks parseChar Scan.next
  rw [h.state, hs]
  dsimp only
  split_ifs
  · exact fun _ => ⟨_, rfl, rfl, h.cut .crLf rfl id⟩
  · exact s.fail_elim rfl

theorem Tracks.round_crLf (h : Tracks (t.bytes l.buf) (c :: rest) l s)
    (hs : s.state = .crLf) : RoundTracks t rest l s c size fin := by
  unfold RoundTracks parseChar Scan.next
  rw [h.state, hs]
  have hne : s.state ≠ .start := by simp [hs]
  dsimp only
  split_ifs
  · exact fun _ => ⟨_, rfl, rfl, h.keep hne .crLfCr (by simp [ParseState.afterColon])⟩
  · exact s.fail_elim rfl
  · exact fun _ => ⟨_, rfl, rfl, h.keep hne .headerKey (by simp [ParseState.afterColon])⟩

theorem Tracks.round_headerKey (h : Tracks (t.bytes l.buf) (c :: rest) l s)
    (hs : s.state = .headerKey) : RoundTracks t rest l s c size fin := by
  unfold RoundTracks parseChar Scan.next
  rw [h.state, hs]
  have hne : s.state ≠ .start := by simp [hs]
  dsimp only
  split_ifs
  · exact fun _ => ⟨_, rfl, rfl, h.mark hne _⟩
  · exact s.fail_elim rfl
  · exact fun _ => ⟨l, rfl, rfl, h.stay hs (by decide)⟩

theorem Tracks.round_beforeHeaderValue (h : Tracks (t.bytes l.buf) (c :: rest) l s)
    (hs : s.state = .beforeHeaderValue) : RoundTracks t rest l s c size fin := by
  unfold RoundTracks parseChar Scan.next
  rw [h.state, hs]
  have hne : s.state ≠ .start := by simp [hs]
  dsimp only
  split_ifs
  · exact s.fail_elim rfl
  · exact fun _ => ⟨_, rfl, rfl, h.keep hne .headerValue (by simp [hs, ParseState.afterColon])⟩

theorem Tracks.round_headerValue (h : Tracks (t.bytes l.buf) (c :: rest) l s) (ok : s.Ok)
    (hs : s.state = .headerValue) : RoundTracks t rest l s c size fin := by
  unfold RoundTracks parseChar Scan.next
  rw [h.state, hs]
  have hac : s.state.afterColon := by simp [hs, ParseState.afterColon]
  have hkey := h.key_string ok hac
  have hvalue := h.value_string hac 2 (ok.gap hs)
  push_cast at hvalue
  dsimp only
  split_ifs
  · rw [hkey, hvalue]
    exact fun _ => ⟨_, rfl, rfl, h.cut _ rfl _⟩
  · exact fun _ => ⟨l, rfl, rfl, h.stay hs (by decide)⟩

theorem Tracks.round_crLfCr (h : Tracks (t.bytes l.buf) (c :: rest) l s)
    (hs : s.state = .crLfCr) : RoundTracks t rest l s c size fin := by
  unfold RoundTracks parseChar Scan.next
  rw [h.state, hs]
  dsimp only
  split_ifs
  · simp [Scan.cut, ParseState.inHead]
  · exact s.fail_elim rfl

end Round

/-- One round of the loop in a head: the locals take the step of the automaton. -/
theorem parseChar_tracks {t : Text} {rest : Bytes} {l : Locals} {s : Scan} {c : UInt8}
    (h : Tracks (t.bytes l.buf) (c :: rest) l s) (ok : s.Ok) (size : Nat) (fin : Int)
    (hn : (s.next c).state.inHead) :
    ∃ l', parseChar t size fin l c = some l' ∧ l'.buf = l.buf ∧
      Tracks (t.bytes l.buf) rest l'.advance (s.next c) := by
  revert hn
  cases hs : s.state with
  | start => exact h.round_start ok hs
  | method => exact h.round_method hs
  | beforeUrl => exact h.round_beforeUrl hs
  | url => exact h.round_url hs
  | beforeUrlParamKey => exact h.round_beforeUrlParamKey hs
  | urlParamKey => exact h.round_urlParamKey hs
  | beforeUrlParamValue => exact h.round_beforeUrlParamValue hs
  | urlParamValue => exact h.round_urlParamValue ok hs
  | beforeProtocol => exact h.round_beforeProtocol ok hs
  | protocol => exact h.round_protocol hs
  | beforeVersion => exact h.round_beforeVersion hs
  | version => exact h.round_version hs
  | encounterCr => exact h.round_encounterCr hs
  | crLf => exact h.round_crLf hs
  | headerKey => exact h.round_headerKey hs
  | beforeHeaderValue => exact h.round_beforeHeaderValue hs
  | headerValue => exact h.round_headerValue ok hs
  | crLfCr => exact h.round_crLfCr hs
  | _ => simp [Scan.next, hs, ParseState.inHead, ParseState.unfinished, ParseState.value]

/-- One round of the loop. -/
theorem parseLoop_succ {t : Text} {l : Locals} {c : UInt8} (size fuel : Nat)
    (hs : l.ctx.state.unfinished) (hlt : l.cur < (t.bytes l.buf).length)
    (hc : (t.bytes l.buf)[l.cur.toNat]? = some c) :
    parseLoop t size (fuel + 1) l =
      (parseChar t size (t.bytes l.buf).length l c).bind
        fun l' => parseLoop t size fuel l'.advance := by
  rw [parseLoop, if_pos ⟨hs, hlt⟩, hc]
  rfl

/-- The loop over text that stays in the head is the automaton's scan of it. -/
theorem parseLoop_tracks (t : Text) (size : Nat) (cs rest : Bytes) (l : Locals) (s : Scan)
    (h : Tracks (t.bytes l.buf) (cs ++ rest) l s) (ok : s.Ok) (hn : (s.feed cs).state.inHead) :
    ∃ l', l'.buf = l.buf ∧ Tracks (t.bytes l.buf) rest l' (s.feed cs) ∧
      ∀ fuel, parseLoop t size (cs.length + fuel) l = parseLoop t size fuel l' := by
  induction cs generalizing l s with
  | nil => exact ⟨l, rfl, h, by simp⟩
  | cons c cs ih =>
    have hnext : (s.next c).state.inHead := Scan.inHead_of_feed _ cs hn
    have hs : s.state.inHead := Scan.inHead_of_feed s (c :: cs) hn
    obtain ⟨l1, hl1, hb1, h1⟩ := parseChar_tracks h ok size (t.bytes l.buf).length hnext
    obtain ⟨hlt, hget⟩ := h.cur_lt
    obtain ⟨l2, hb2, h2, hloop⟩ := ih l1.advance (s.next c)
      (by rw [Locals.advance_buf, hb1]; exact h1) (Scan.next_ok ok c) hn
    rw [Locals.advance_buf, hb1] at hb2 h2
    refine ⟨l2, hb2, h2, fun fuel => ?_⟩
    have hun : l.ctx.state.unfinished := by rw [h.state]; exact ParseState.inHead_unfinished hs
    rw [List.length_cons, Nat.add_right_comm, parseLoop_succ size _ hun hlt hget, hl1,
      Option.bind_some, hloop]

/-- A context between two calls of `parseRequest` from which the scan `s` goes on. -/
structure Resumes (ctx : HTTPContext) (s : Scan) : Prop where
  ok : s.Ok
  inHead : s.state.inHead
  state : ctx.state = s.state
  request : ctx.request = s.request
  contentLength : ctx.contentLength = npos
  saved : ctx.snapshot.parseState = s.state
  lastRequest : s.state ≠ .start → ctx.snapshot.lastRequest = s.word
  colon : s.state.afterColon → ctx.snapshot.colon = s.colon

theorem resumes_new : Resumes HTTPContext.new Scan.init :=
  ⟨Scan.init_ok, rfl, rfl, rfl, rfl, rfl, fun h => absurd rfl h,
    by simp [Scan.init, ParseState.afterColon]⟩

/-- `reset` leaves `lastRequest__` and `colon__` as they are, but nothing reads them. -/
theorem resumes_reset (ctx : HTTPContext) : Resumes ctx.reset Scan.init :=
  ⟨Scan.init_ok, rfl, rfl, rfl, rfl, rfl, fun h => absurd rfl h,
    by simp [Scan.init, ParseState.afterColon]⟩

@[simp] theorem enter_ctx (ctx : HTTPContext) (b : Buffer) : (enter ctx b).2.ctx = ctx := by
  rw [enter]
  split_ifs <;> rfl

@[simp] theorem enter_buf (ctx : HTTPContext) (b : Buffer) :
    (enter ctx b).2.buf = b.retrieveAll := by
  rw [enter]
  split_ifs <;> rfl

/-- Entering `parseRequest`: the text is what the scan has of its word and the new bytes. -/
theorem enter_tracks {ctx : HTTPContext} {s : Scan} (h : Resumes ctx s) (b : Buffer) :
    (enter ctx b).2.buf = b.retrieveAll ∧ (enter ctx b).2.cur = s.word.length ∧
      ((enter ctx b).1.bytes b.retrieveAll) = s.word ++ b.toString ∧
      Tracks ((enter ctx b).1.bytes b.retrieveAll) b.toString (enter ctx b).2 s := by
  by_cases hs : s.state = .start
  · have hw := h.ok.closed (.inl hs)
    have hcond : ¬ParseState.start.value < ctx.snapshot.parseState.value := by
      rw [h.saved, hs]; exact lt_irrefl _
    have htext : (Text.inBuffer b.readerIndex b.readableBytes).bytes b.retrieveAll =
        s.word ++ b.toString := by rw [hw]; rfl
    rw [enter]
    rw [if_neg hcond]
    refine ⟨rfl, by simp [hw], htext, h.state, h.request, h.contentLength, by simp, [],
      ?_, ?_, ?_, ?_⟩
    · rw [htext]; rfl
    · simp [hw]
    · exact fun hn => absurd hs hn
    · intro ha
      simp [hs, ParseState.afterColon] at ha
  · have hcond : ParseState.start.value < ctx.snapshot.parseState.value := by
      rw [h.saved]
      have hin := h.inHead
      revert hs hin
      cases s.state <;> decide
    have hlast := h.lastRequest hs
    rw [enter]
    rw [if_pos hcond, hlast]
    refine ⟨rfl, rfl, rfl, h.state, h.request, h.contentLength, by simp, [], rfl, ?_, ?_, ?_⟩
    · simp
    · simp
    · intro ha
      simpa using h.colon ha

/-- Leaving `parseRequest` in the head: the snapshot keeps the open word and its separator. -/
theorem saveSnapshot_resumes {t : Text} {l : Locals} {s : Scan}
    (h : Tracks (t.bytes l.buf) [] l s) (ok : s.Ok) (hs : s.state.inHead) :
    ∃ ctx, saveSnapshot t l = some ctx ∧ ctx.state = s.state ∧ Resumes ctx s := by
  have hun : l.ctx.state.unfinished := by rw [h.state]; exact ParseState.inHead_unfinished hs
  have hbody : l.ctx.state ≠ .body := by
    rw [h.state]
    exact ParseState.ne_of_inHead hs rfl
  obtain ⟨last, hlast, hword⟩ : ∃ last, t.string l.buf l.start l.cur = some last ∧
      (s.state ≠ .start → last = s.word) := by
    have hcur := h.cur_end
    have hin := h.inside
    by_cases hst : s.state = .start
    · exact ⟨_, if_pos ⟨hin.1, hin.2, hcur.le⟩, fun hn => absurd hst hn⟩
    · exact ⟨s.word, h.word_string hst, fun _ => rfl⟩
  rw [saveSnapshot]
  simp only [hun, Bool.not_true, Bool.false_eq_true, if_false, hbody, hlast, Option.bind_eq_bind,
    Option.bind_some, Option.pure_def, Option.some.injEq, exists_eq_left']
  refine ⟨h.state, ok, hs, h.state, h.request, h.contentLength, h.state, hword, ?_⟩
  intro ha
  obtain ⟨pre, -, -, hst, hco⟩ := h.place
  have hne : s.state ≠ .start := by intro he; simp [he, ParseState.afterColon] at ha
  have hc := hco ha
  have hp := hst hne
  dsimp only
  split_ifs <;> omega

/-- What `parseRequest` does after its loop. -/
def finish (t : Text) (l : Locals) : Option (ParseState × HTTPContext × Buffer) :=
  (saveSnapshot t l).map fun ctx => (ctx.state, ctx, l.buf)

theorem parseRequest_loop (ctx : HTTPContext) (b : Buffer) :
    parseRequest ctx b =
      (parseLoop (enter ctx b).1 b.readableBytes
        (((enter ctx b).1.bytes (enter ctx b).2.buf).length - (enter ctx b).2.cur.toNat)
        (enter ctx b).2).bind (finish (enter ctx b).1) := by
  simp only [parseRequest, Option.bind_eq_bind, Option.pure_def]
  congr 1
  funext l
  rw [finish, Option.map_eq_bind]
  rfl

/-- The loop runs once for each new byte, unless it stops before. -/
theorem parseRequest_eq {ctx : HTTPContext} {b : Buffer} {old : Bytes}
    (hbuf : (enter ctx b).2.buf = b.retrieveAll) (hcur : (enter ctx b).2.cur = old.length)
    (htext : (enter ctx b).1.bytes b.retrieveAll = old ++ b.toString) :
    parseRequest ctx b =
      (parseLoop (enter ctx b).1 b.readableBytes b.toString.length (enter ctx b).2).bind
        (finish (enter ctx b).1) := by
  have hfuel : ((enter ctx b).1.bytes (enter ctx b).2.buf).length - (enter ctx b).2.cur.toNat =
      b.toString.length := by
    rw [hbuf, htext, hcur, Int.toNat_natCast, List.length_append]
    omega
  rw [parseRequest_loop, hfuel]

/-- A chunk that ends inside the head: everything read is kept, and the buffer is empty. -/
theorem parseRequest_head {ctx : HTTPContext} {s : Scan} (h : Resumes ctx s) {b : Buffer}
    (hn : (s.feed b.toString).state.inHead) :
    ∃ ctx', parseRequest ctx b = some ((s.feed b.toString).state, ctx', b.retrieveAll) ∧
      Resumes ctx' (s.feed b.toString) := by
  obtain ⟨hbuf, hcur, htext, htr⟩ := enter_tracks h b
  rw [← hbuf] at htr
  obtain ⟨l', hb', htr', hloop⟩ := parseLoop_tracks (enter ctx b).1 b.readableBytes b.toString []
    (enter ctx b).2 s (by simpa using htr) h.ok hn
  rw [← hb'] at htr'
  obtain ⟨ctx', hsave, hstate, hres⟩ := saveSnapshot_resumes htr' (Scan.feed_ok h.ok _) hn
  refine ⟨ctx', ?_, hres⟩
  rw [parseRequest_eq hbuf hcur htext, ← Nat.add_zero b.toString.length, hloop, parseLoop,
    Option.bind_some, finish, hsave, Option.map_some, hstate, hb', hbuf]

end MuduoServer

import Mathlib.Data.List.Basic
import Mathlib.Data.List.Infix

/-! # Incremental parsers of framed streams

A stream of frames reaches a reader in chunks. After each chunk the reader takes frames from
its buffer as long as it can. Whether the result is the list of the frames depends only
on what the reader makes of the beginnings of a frame that the cuts leave in its buffer.
-/

namespace Framing

variable {α β γ σ : Type*}

inductive Next (γ β : Type*)
  | wait
  | fault
  | take (x : γ) (rest : List β)
  deriving DecidableEq

/-- A reader: what it has not taken yet, what it has made of the rest, and whether it failed. -/
structure Feed (σ β : Type*) where
  buffer : List β := []
  sink : σ
  fault : Bool := false
  deriving DecidableEq

section Reader

variable (next : List β → Next γ β) (emit : σ → γ → σ)

def loop : ℕ → Feed σ β → Feed σ β
  | 0, s => s
  | n + 1, s =>
    if s.buffer.isEmpty then s
    else match next s.buffer with
      | .wait => s
      | .fault => { s with fault := true }
      | .take x rest => loop n { s with buffer := rest, sink := emit s.sink x }

/-- A chunk arrives. A frame has at least one element, so that the loop ends by itself. -/
def feed (s : Feed σ β) (chunk : List β) : Feed σ β :=
  if s.fault then s
  else loop next emit (s.buffer ++ chunk).length { s with buffer := s.buffer ++ chunk }

end Reader

section Stream

variable (enc : α → List β) (ok : α → Bool)

def stream (as : List α) : List β := as.flatMap enc

/--
The frames that are not complete after `c` elements of their stream, from the first one that is
not, or that the reader cannot take; and how many elements of them there are.
-/
def ahead : List α → ℕ → List α × ℕ
  | [], c => ([], c)
  | a :: as, c => if ok a && (enc a).length ≤ c then ahead as (c - (enc a).length) else (a :: as, c)

def behind : List α → ℕ → List α
  | [], _ => []
  | a :: as, c => if ok a && (enc a).length ≤ c then a :: behind as (c - (enc a).length) else []

/-- A cut after `c` elements leaves nothing, or a beginning for which the reader waits. -/
def goodCut (waits : α → ℕ → Bool) (as : List α) (c : ℕ) : Bool :=
  match ahead enc ok as c with
  | ([], _) => true
  | (a :: _, n) => n = 0 || !ok a || waits a n

end Stream

/--
The reader takes the contents of the frames that are `ok`, and never gets past another one. For
the beginning of a frame it waits, or fails.
-/
structure Reads (next : List β → Next γ β) (enc : α → List β) (contents : α → γ) (ok : α → Bool)
    (waits : α → ℕ → Bool) : Prop where
  pos : ∀ a, 0 < (enc a).length
  take : ∀ a rest, ok a = true → next (enc a ++ rest) = .take (contents a) rest
  part : ∀ a n, ok a = true → 0 < n → n < (enc a).length →
    next ((enc a).take n) = if waits a n then .wait else .fault
  stuck : ∀ a rest n, ok a = false → 0 < n → next ((enc a ++ rest).take n) = .wait

variable {next : List β → Next γ β} {emit : σ → γ → σ} {enc : α → List β} {contents : α → γ}
  {ok : α → Bool} {waits : α → ℕ → Bool}

@[simp] theorem stream_nil : stream enc [] = [] := rfl

@[simp] theorem stream_cons (a : α) (as : List α) :
    stream enc (a :: as) = enc a ++ stream enc as := rfl

/-! ## Cuts -/

/-- The two cases of a cut: the first frame is complete and taken, or it is not. -/
theorem cut_cases (enc : α → List β) (ok : α → Bool) (a : α) (as : List α) (c : ℕ) :
    (ok a = true ∧ (enc a).length ≤ c ∧
      ahead enc ok (a :: as) c = ahead enc ok as (c - (enc a).length) ∧
      behind enc ok (a :: as) c = a :: behind enc ok as (c - (enc a).length)) ∨
    ((ok a = true → c < (enc a).length) ∧ ahead enc ok (a :: as) c = (a :: as, c) ∧
      behind enc ok (a :: as) c = []) := by
  by_cases h : ok a = true ∧ (enc a).length ≤ c
  · exact .inl ⟨h.1, h.2, by simp [ahead, h], by simp [behind, h]⟩
  · refine .inr ⟨fun hok => ?_, ?_, ?_⟩
    · by_contra hle
      exact h ⟨hok, by omega⟩
    · rw [ahead, if_neg (by simpa using h)]
    · rw [behind, if_neg (by simpa using h)]

theorem goodCut_of_le {a : α} {as : List α} {c : ℕ} (hok : ok a = true)
    (h : (enc a).length ≤ c) :
    goodCut enc ok waits (a :: as) c = goodCut enc ok waits as (c - (enc a).length) := by
  rw [goodCut, ahead, if_pos (by simp [hok, h]), goodCut]

theorem goodCut_of_lt {a : α} {as : List α} {c : ℕ} (hok : ok a = true)
    (h : c < (enc a).length) :
    goodCut enc ok waits (a :: as) c = (c = 0 || waits a c) := by
  rw [goodCut, ahead, if_neg (by simp [h])]
  simp [hok]

theorem cut_add (as : List α) (c k : ℕ) :
    ahead enc ok as (c + k) = ahead enc ok (ahead enc ok as c).1 ((ahead enc ok as c).2 + k) ∧
      behind enc ok as (c + k) = behind enc ok as c ++
        behind enc ok (ahead enc ok as c).1 ((ahead enc ok as c).2 + k) := by
  induction as generalizing c with
  | nil => exact ⟨rfl, rfl⟩
  | cons a as ih =>
    rcases cut_cases enc ok a as c with ⟨hok, hle, hahead, hbehind⟩ |
      ⟨-, hahead, hbehind⟩
    · have hle' : (enc a).length ≤ c + k := by omega
      have hsub : c + k - (enc a).length = c - (enc a).length + k := by omega
      rw [hahead, hbehind, ahead, behind, if_pos (by simp [hok, hle']),
        if_pos (by simp [hok, hle']), hsub, List.cons_append]
      exact ⟨(ih _).1, by rw [(ih _).2]⟩
    · rw [hahead, hbehind]
      exact ⟨rfl, rfl⟩

theorem goodCut_add (as : List α) (c k : ℕ) :
    goodCut enc ok waits as (c + k) =
      goodCut enc ok waits (ahead enc ok as c).1 ((ahead enc ok as c).2 + k) := by
  rw [goodCut, (cut_add as c k).1, goodCut]

theorem cut_zero (h : Reads next enc contents ok waits) (as : List α) :
    ahead enc ok as 0 = (as, 0) ∧ behind enc ok as 0 = [] := by
  cases as with
  | nil => exact ⟨rfl, rfl⟩
  | cons a as =>
    have hpos := h.pos a
    rcases cut_cases enc ok a as 0 with ⟨-, hle, -⟩ | ⟨-, hahead, hbehind⟩
    · omega
    · exact ⟨hahead, hbehind⟩

theorem cut_length (as : List α) :
    ahead enc ok as (stream enc as).length =
        (as.dropWhile ok, (stream enc (as.dropWhile ok)).length) ∧
      behind enc ok as (stream enc as).length = as.takeWhile ok := by
  induction as with
  | nil => exact ⟨rfl, rfl⟩
  | cons a as ih =>
    cases hok : ok a with
    | true =>
      have hsub : (enc a ++ stream enc as).length - (enc a).length = (stream enc as).length := by
        simp
      simp only [stream_cons, ahead, behind, hok, hsub, List.dropWhile_cons, List.takeWhile_cons]
      simpa using ih
    | false => simp [ahead, behind, hok]

theorem drop_ahead (enc : α → List β) (ok : α → Bool) (as : List α) (c : ℕ) :
    (stream enc (ahead enc ok as c).1).drop (ahead enc ok as c).2 = (stream enc as).drop c := by
  induction as generalizing c with
  | nil => rfl
  | cons a as ih =>
    rcases cut_cases enc ok a as c with ⟨-, hle, hahead, -⟩ | ⟨-, hahead, -⟩
    · rw [hahead, ih, stream_cons, List.drop_append, List.drop_eq_nil_of_le hle, List.nil_append]
    · rw [hahead]

theorem ahead_le {as : List α} {c : ℕ} (hc : c ≤ (stream enc as).length) :
    (ahead enc ok as c).2 ≤ (stream enc (ahead enc ok as c).1).length := by
  induction as generalizing c with
  | nil => exact hc
  | cons a as ih =>
    rcases cut_cases enc ok a as c with ⟨-, hle, hahead, -⟩ | ⟨-, hahead, -⟩
    · rw [hahead]
      apply ih
      rw [stream_cons, List.length_append] at hc
      omega
    · rw [hahead]
      exact hc

/-! ## The reader -/

theorem take_stream_cons {a : α} {as : List α} {c : ℕ} (h : (enc a).length ≤ c) :
    (stream enc (a :: as)).take c = enc a ++ (stream enc as).take (c - (enc a).length) := by
  rw [stream_cons, List.take_append, List.take_of_length_le h]

theorem loop_take (h : Reads next enc contents ok waits) {as : List α} {c n : ℕ}
    (hc : c ≤ (stream enc as).length) (hn : c ≤ n) (sink : σ) :
    loop next emit n ⟨(stream enc as).take c, sink, false⟩ =
      ⟨(stream enc (ahead enc ok as c).1).take (ahead enc ok as c).2,
        ((behind enc ok as c).map contents).foldl emit sink, !goodCut enc ok waits as c⟩ := by
  induction as generalizing c n sink with
  | nil =>
    have hc : c = 0 := by simpa using hc
    subst hc
    cases n <;> simp [loop, ahead, behind, goodCut]
  | cons a as ih =>
    have hpos := h.pos a
    rcases cut_cases enc ok a as c with ⟨hok, hle, hahead, hbehind⟩ |
      ⟨hlt, hahead, hbehind⟩
    · obtain ⟨n, rfl⟩ : ∃ m, n = m + 1 := ⟨n - 1, by omega⟩
      have hempty : (enc a ++ (stream enc as).take (c - (enc a).length)).isEmpty = false := by
        rw [List.isEmpty_eq_false_iff, ← List.length_pos_iff]
        simp only [List.length_append]
        omega
      rw [loop, take_stream_cons hle, hempty, hahead, hbehind, goodCut_of_le hok hle,
        h.take a _ hok]
      simp only [List.map_cons, List.foldl_cons]
      apply ih
      · rw [stream_cons, List.length_append] at hc
        omega
      · omega
    · rw [hahead, hbehind]
      rcases Nat.eq_zero_or_pos c with rfl | hcpos
      · cases n <;> simp [loop, goodCut, hahead]
      · obtain ⟨n, rfl⟩ : ∃ m, n = m + 1 := ⟨n - 1, by omega⟩
        have hempty : ((stream enc (a :: as)).take c).isEmpty = false := by
          rw [List.isEmpty_eq_false_iff, ← List.length_pos_iff, List.length_take]
          omega
        rw [loop, hempty]
        cases hok : ok a with
        | true =>
          have hpart : (stream enc (a :: as)).take c = (enc a).take c := by
            rw [stream_cons, List.take_append_of_le_length (hlt hok).le]
          rw [hpart, h.part a c hok hcpos (hlt hok)]
          cases hw : waits a c <;> simp [goodCut, hahead, hok, hw]
          omega
        | false =>
          rw [stream_cons, h.stuck a (stream enc as) c hok hcpos]
          simp [goodCut, hahead, hok]

/-- The loop keeps what every frame keeps. -/
theorem loop_invariant (next : List β → Next γ β) (emit : σ → γ → σ) {P : Feed σ β → Prop}
    (htake : ∀ s x rest, P s → next s.buffer = .take x rest →
      P { s with buffer := rest, sink := emit s.sink x })
    (hfault : ∀ s, P s → next s.buffer = .fault → P { s with fault := true }) (n : ℕ)
    {s : Feed σ β} (h : P s) : P (loop next emit n s) := by
  induction n generalizing s with
  | zero => exact h
  | succ n ih =>
    rw [loop]
    split
    · exact h
    · cases hnext : next s.buffer with
      | wait => exact h
      | fault => exact hfault s h hnext
      | take x rest => exact ih (htake s x rest h hnext)

theorem loop_rests (next : List β → Next γ β) (emit : σ → γ → σ)
    (hshort : ∀ buf x rest, next buf = .take x rest → rest.length < buf.length)
    {n : ℕ} {s : Feed σ β} (h : s.buffer.length ≤ n) :
    (loop next emit n s).buffer = [] ∨
      ∀ x rest, next (loop next emit n s).buffer ≠ .take x rest := by
  induction n generalizing s with
  | zero => exact .inl (List.length_eq_zero_iff.mp (Nat.le_zero.mp h))
  | succ n ih =>
    rw [loop]
    split
    · next hempty => exact .inl (List.isEmpty_iff.mp hempty)
    · cases hnext : next s.buffer with
      | wait => exact .inr fun x rest hx => nomatch hnext.symm.trans hx
      | fault => exact .inr fun x rest hx => nomatch hnext.symm.trans hx
      | take x rest =>
        apply ih
        have hlt := hshort s.buffer x rest hnext
        show rest.length ≤ n
        omega

theorem exists_sink_loop (n : ℕ) (s : Feed σ β) :
    ∃ xs : List γ, (loop next emit n s).sink = xs.foldl emit s.sink := by
  induction n generalizing s with
  | zero => exact ⟨[], rfl⟩
  | succ n ih =>
    rw [loop]
    split
    · exact ⟨[], rfl⟩
    · cases next s.buffer with
      | wait => exact ⟨[], rfl⟩
      | fault => exact ⟨[], rfl⟩
      | take x rest =>
        obtain ⟨xs, hxs⟩ := ih { s with buffer := rest, sink := emit s.sink x }
        exact ⟨x :: xs, hxs⟩

theorem exists_sink_feed (s : Feed σ β) (chunk : List β) :
    ∃ xs : List γ, (feed next emit s chunk).sink = xs.foldl emit s.sink := by
  rw [feed]
  split
  · exact ⟨[], rfl⟩
  · exact exists_sink_loop _ { s with buffer := s.buffer ++ chunk }

theorem feed_of_fault {s : Feed σ β} (h : s.fault = true) (chunk : List β) :
    feed next emit s chunk = s := by
  rw [feed, if_pos h]

theorem foldl_feed_of_fault {s : Feed σ β} (h : s.fault = true) (chunks : List (List β)) :
    chunks.foldl (feed next emit) s = s := by
  induction chunks with
  | nil => rfl
  | cons chunk chunks ih => rw [List.foldl_cons, feed_of_fault h, ih]

/-- The reader after `c` elements, if it has not failed. -/
def after (enc : α → List β) (contents : α → γ) (ok : α → Bool) (emit : σ → γ → σ) (sink : σ)
    (as : List α) (c : ℕ) : Feed σ β :=
  ⟨(stream enc (ahead enc ok as c).1).take (ahead enc ok as c).2,
    ((behind enc ok as c).map contents).foldl emit sink, false⟩

theorem feed_after (h : Reads next enc contents ok waits) {as : List α} {c : ℕ}
    {chunk rest : List β} (hchunk : (stream enc as).drop c = chunk ++ rest)
    (hc : c ≤ (stream enc as).length) (sink : σ) :
    feed next emit (after enc contents ok emit sink as c) chunk =
      { after enc contents ok emit sink as (c + chunk.length) with
        fault := !goodCut enc ok waits as (c + chunk.length) } := by
  have hbuffer : (stream enc (ahead enc ok as c).1).take (ahead enc ok as c).2 ++ chunk =
      (stream enc (ahead enc ok as c).1).take ((ahead enc ok as c).2 + chunk.length) := by
    rw [List.take_add, drop_ahead, hchunk, List.take_left]
  have hlen : (ahead enc ok as c).2 + chunk.length ≤
      (stream enc (ahead enc ok as c).1).length := by
    have hdrop := congrArg List.length (drop_ahead enc ok as c)
    have hle : (ahead enc ok as c).2 ≤ (stream enc (ahead enc ok as c).1).length := ahead_le hc
    rw [hchunk, List.length_drop, List.length_append] at hdrop
    omega
  rw [feed, after, if_neg (by simp), hbuffer, loop_take h hlen (by rw [List.length_take]; omega)]
  simp only [after, cut_add as c, goodCut_add as c, List.map_append, List.foldl_append]

/--
The reader has not failed after the last chunk exactly when all cuts are good, and then it has
taken the frames up to the first one that it cannot take.
-/
theorem foldl_feed_after (h : Reads next enc contents ok waits) (emit : σ → γ → σ) {as : List α}
    {c : ℕ} {chunks : List (List β)} (hchunks : (stream enc as).drop c = chunks.flatten)
    (hc : c ≤ (stream enc as).length) (sink : σ) :
    ((chunks.foldl (feed next emit) (after enc contents ok emit sink as c)).fault = false ↔
      ∀ cs, cs <+: chunks → cs ≠ [] → goodCut enc ok waits as (c + cs.flatten.length) = true) ∧
    ((chunks.foldl (feed next emit) (after enc contents ok emit sink as c)).fault = false →
      chunks.foldl (feed next emit) (after enc contents ok emit sink as c) =
        after enc contents ok emit sink as (stream enc as).length) := by
  induction chunks generalizing c with
  | nil =>
    have hend : c = (stream enc as).length := by
      have hlen := congrArg List.length hchunks
      rw [List.length_drop, List.flatten_nil, List.length_nil] at hlen
      omega
    refine ⟨⟨fun _ cs hcs hne => ?_, fun _ => rfl⟩, fun _ => by rw [List.foldl_nil, hend]⟩
    exact absurd (List.prefix_nil.mp hcs) hne
  | cons chunk chunks ih =>
    rw [List.flatten_cons] at hchunks
    have hlen : c + chunk.length ≤ (stream enc as).length := by
      have hlen := congrArg List.length hchunks
      rw [List.length_drop, List.length_append] at hlen
      omega
    have hrest : (stream enc as).drop (c + chunk.length) = chunks.flatten := by
      rw [← List.drop_drop, hchunks, List.drop_left]
    rw [List.foldl_cons, feed_after h hchunks hc]
    cases hgood : goodCut enc ok waits as (c + chunk.length) with
    | false =>
      rw [foldl_feed_of_fault rfl]
      refine ⟨⟨fun hfault => ?_, fun hall => ?_⟩, fun hfault => ?_⟩
      · cases hfault
      · have hfirst := hall [chunk] (by simp) (by simp)
        rw [List.flatten_singleton, hgood] at hfirst
        cases hfirst
      · cases hfault
    | true =>
      obtain ⟨hiff, hend⟩ := ih hrest hlen
      refine ⟨hiff.trans ⟨fun hall cs hcs hne => ?_, fun hall cs hcs hne => ?_⟩, hend⟩
      · obtain ⟨cs', rfl, hcs'⟩ := (List.prefix_cons_iff.mp hcs).resolve_left hne
        rw [List.flatten_cons, List.length_append, ← Nat.add_assoc]
        by_cases hnil : cs' = []
        · rw [hnil]
          exact hgood
        · exact hall cs' hcs' hnil
      · have hmore := hall (chunk :: cs) (List.prefix_cons_inj chunk |>.mpr hcs) (by simp)
        rwa [List.flatten_cons, List.length_append, ← Nat.add_assoc] at hmore

theorem foldl_feed (h : Reads next enc contents ok waits) (emit : σ → γ → σ) {as : List α}
    {chunks : List (List β)} (hchunks : chunks.flatten = stream enc as) (sink : σ) :
    ((chunks.foldl (feed next emit) { sink := sink }).fault = false ↔
      ∀ cs, cs <+: chunks → goodCut enc ok waits as cs.flatten.length = true) ∧
    ((chunks.foldl (feed next emit) { sink := sink }).fault = false →
      chunks.foldl (feed next emit) { sink := sink } =
        ⟨stream enc (as.dropWhile ok), ((as.takeWhile ok).map contents).foldl emit sink,
          false⟩) := by
  obtain ⟨hahead, hbehind⟩ := cut_zero h as
  have hstart : after enc contents ok emit sink as 0 = { sink := sink } := by
    simp [after, hahead, hbehind]
  have hend : after enc contents ok emit sink as (stream enc as).length =
      ⟨stream enc (as.dropWhile ok), ((as.takeWhile ok).map contents).foldl emit sink, false⟩ := by
    simp [after, cut_length]
  have hzero : goodCut enc ok waits as 0 = true := by
    rw [goodCut, hahead]
    cases as <;> simp
  obtain ⟨hiff, hdone⟩ := foldl_feed_after (c := 0) h emit hchunks.symm (Nat.zero_le _) sink
  rw [hstart] at hiff hdone
  refine ⟨hiff.trans ⟨fun hall cs hcs => ?_, fun hall cs hcs _ => ?_⟩, fun hok => ?_⟩
  · by_cases hnil : cs = []
    · rw [hnil]
      exact hzero
    · simpa using hall cs hcs hnil
  · simpa using hall cs hcs
  · rw [hdone hok, hend]

end Framing

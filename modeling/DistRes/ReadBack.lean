import DistRes.Atomicity

/-!
# What a read makes of a record

A write encodes its record and appends the bytes as they are; a read decodes the file and then
translates `'\r\n'` and `'\r'` to `'\n'`.

* `universalNewlines_append` — texts are translated apart unless a `'\r\n'` is cut in two;
* `read_back_iff` — two reads around a write differ by its record exactly when no carriage return is
  in the record or at the end of the file.
-/

namespace DistRes

open Lib

/-! ## Universal newlines -/

theorem universalNewlines_cons {c : CodePoint} (hc : c ≠ 13) (s : Text) :
    universalNewlines (c :: s) = c :: universalNewlines s := by
  conv_lhs => unfold universalNewlines
  rw [if_neg hc]

theorem universalNewlines_crlf (s : Text) :
    universalNewlines (13 :: 10 :: s) = 10 :: universalNewlines s := by
  conv_lhs => unfold universalNewlines
  rfl

theorem universalNewlines_cr {s : Text} (hs : s.head? ≠ some 10) :
    universalNewlines (13 :: s) = 10 :: universalNewlines s := by
  conv_lhs => unfold universalNewlines
  rw [if_pos rfl]
  cases s with
  | nil => rfl
  | cons d r =>
    have hd : d ≠ 10 := fun h => hs (by rw [h]; rfl)
    simp only [if_neg hd]

/-- A translated text has no carriage return. -/
theorem cr_notMem_universalNewlines (s : Text) : 13 ∉ universalNewlines s := by
  fun_induction universalNewlines s with
  | case1 => simp
  | case2 => decide
  | case3 r ih => simpa using ih
  | case4 d r hd ih => simpa using ih
  | case5 c s hc ih => simpa [Ne.symm hc] using ih

theorem universalNewlines_length (s : Text) : (universalNewlines s).length ≤ s.length := by
  fun_induction universalNewlines s with
  | case1 => simp
  | case2 => simp
  | case3 r ih =>
    simp only [List.length_cons]
    omega
  | case4 d r hd ih =>
    simp only [List.length_cons] at ih ⊢
    omega
  | case5 c s hc ih =>
    simp only [List.length_cons]
    omega

/-- The texts that the translation leaves alone. -/
theorem universalNewlines_eq_self {s : Text} : universalNewlines s = s ↔ 13 ∉ s := by
  constructor
  · intro h
    rw [← h]
    exact cr_notMem_universalNewlines s
  · exact universalNewlines_of_no_cr s

/-- **Two texts are translated apart**, unless the first ends in `'\r'` and the second begins with
`'\n'`. -/
theorem universalNewlines_append {s t : Text} (h : s.getLast? ≠ some 13 ∨ t.head? ≠ some 10) :
    universalNewlines (s ++ t) = universalNewlines s ++ universalNewlines t := by
  fun_induction universalNewlines s with
  | case1 => rfl
  | case2 =>
    have ht : t.head? ≠ some 10 := h.resolve_left (fun hn => hn rfl)
    rw [List.singleton_append, universalNewlines_cr ht]
    rfl
  | case3 r ih =>
    have hr : r.getLast? ≠ some 13 ∨ t.head? ≠ some 10 := by
      refine h.imp_left fun hn hr => hn ?_
      rw [List.getLast?_cons, List.getLast?_cons, hr]
      rfl
    rw [List.cons_append, List.cons_append, universalNewlines_crlf, ih hr, List.cons_append]
  | case4 d r hd ih =>
    have hr : (d :: r).getLast? ≠ some 13 ∨ t.head? ≠ some 10 := by
      refine h.imp_left fun hn hr => hn ?_
      rw [List.getLast?_cons, hr]
      rfl
    have hhead : ((d :: r) ++ t).head? ≠ some 10 := by simpa using hd
    rw [List.cons_append, universalNewlines_cr hhead, ih hr, List.cons_append]
  | case5 c s hc ih =>
    have hr : s.getLast? ≠ some 13 ∨ t.head? ≠ some 10 := by
      refine h.imp_left fun hn hr => hn ?_
      rw [List.getLast?_cons, hr]
      rfl
    rw [List.cons_append, universalNewlines_cons hc, ih hr, List.cons_append]

/-- **What is appended behind a line feed is read as it is** exactly when neither it has a carriage
return nor the text before it ends in one. -/
theorem universalNewlines_append_eq_iff {s t : Text} (ht : t.head? = some 10) :
    universalNewlines (s ++ t) = universalNewlines s ++ t ↔ 13 ∉ t ∧ s.getLast? ≠ some 13 := by
  by_cases hs : s.getLast? = some 13
  · -- the line feed is swallowed
    refine iff_of_false (fun he => ?_) fun h => h.2 hs
    obtain ⟨r, rfl⟩ := List.getLast?_eq_some_iff.1 hs
    obtain ⟨q, rfl⟩ := List.head?_eq_some_iff.1 ht
    have hcut : universalNewlines (r ++ [13] ++ 10 :: q) =
        universalNewlines r ++ 10 :: universalNewlines q := by
      rw [List.append_assoc, List.singleton_append,
        universalNewlines_append (.inr (by rw [List.head?_cons]; decide)), universalNewlines_crlf]
    have hend : universalNewlines (r ++ [13]) = universalNewlines r ++ [10] :=
      universalNewlines_append (.inr (by decide))
    rw [hcut, hend, List.append_assoc] at he
    have hlen := congrArg List.length (List.append_cancel_left he)
    have hle := universalNewlines_length q
    simp only [List.length_cons, List.singleton_append] at hlen
    omega
  · rw [universalNewlines_append (.inl hs), List.append_cancel_left_eq, universalNewlines_eq_self]
    simp [hs]

/-! ## Two reads around a write -/

/-- The event is no write that has changed the file. -/
def FileEvent.quiet : FileEvent → Bool
  | .read _ _ => true
  | .write e => !e.succeeded && !e.trace.torn

section Reads

variable {T : Type} [DecidableEq T] [Fintype T] {file : Bytes}

theorem settled_of_quiet {before mid : List FileEvent} (hp : InPlace (Placed file) (before ++ mid))
    (hquiet : ∀ ev ∈ mid, ev.quiet = true) : settled file (before ++ mid) = settled file before := by
  induction mid using List.reverseRecOn with
  | nil => rw [List.append_nil]
  | append_singleton mid ev ih =>
    rw [← List.append_assoc] at hp ⊢
    have ih := ih hp.of_append fun e he => hquiet e (List.mem_append_left _ he)
    have hplaced := hp _ ev [] rfl
    have hev := hquiet ev (by simp)
    rw [settled_append, ih]
    cases ev with
    | read => rfl
    | write e =>
      obtain ⟨hends, hfound, -⟩ := hplaced
      obtain ⟨hsucc, htorn⟩ : e.succeeded = false ∧ e.trace.torn = false := by
        simpa [FileEvent.quiet] using hev
      cases hends with
      | refused _ _ hnone => simp [FileEvent.after, hnone]
      | committed b ho hok =>
        rw [e.succeeded_ok ho, hok] at hsucc
        cases hsucc
      | failed b _ hsome _ _ hleft => simp [FileEvent.after, hsome, hleft, hfound b hsome, ih]
      | torn b _ _ _ h1 =>
        rw [h1] at htorn
        cases htorn

theorem readText_eq_some {f : Bytes} {c : Text} :
    readText f = some c ↔ ∃ s, f = utf8 s ∧ encodable s = true ∧ c = universalNewlines s := by
  simp only [readText, Option.map_eq_some_iff, utf8Decode_eq_some, and_assoc, eq_comm (b := c)]

/-- **What was written is what is read**, for a read, a successful write and a read with no other
change of the file between them, if and only if no carriage return is in the record of the write or
the last byte of the file before it. -/
theorem read_back_iff {s : Pool.State T (DataLayer T) Call} {h : FileHistory T}
    (hr : (auditedDataLayer T file).Reachable (s, h)) {before mid mid' after : List FileEvent}
    {f f' : Bytes} {r r' : Result} {e : EndedWrite}
    (hlog : h.events =
      before ++ .read f r :: (mid ++ .write e :: (mid' ++ .read f' r' :: after)))
    (hmid : ∀ ev ∈ mid, ev.quiet = true) (hmid' : ∀ ev ∈ mid', ev.quiet = true)
    (he : e.succeeded = true) :
    r'.text = r.text ++ e.record ↔ 13 ∉ e.record ∧ f.getLast? ≠ some 13 := by
  have hp := (auditInv_of_reachable hr).placed
  -- the events up to the first read, up to the write and up to the second read
  have hread := hp before (.read f r) _ hlog
  have hlog1 : h.events = (before ++ [.read f r] ++ mid) ++
      .write e :: (mid' ++ .read f' r' :: after) := by simp [hlog]
  have hwrite := hp _ (.write e) _ hlog1
  have hlog2 : h.events = (before ++ [.read f r] ++ mid ++ [.write e] ++ mid') ++
      .read f' r' :: after := by simp [hlog]
  have hread' := hp _ (.read f' r') _ hlog2
  have hp2 := hp
  rw [hlog2] at hp2
  have hp1 := hp
  rw [hlog1] at hp1
  obtain ⟨hf, -, htext⟩ := hread
  obtain ⟨hends, hfound, -⟩ := hwrite
  obtain ⟨hf', -, htext'⟩ := hread'
  have hset1 : settled file (before ++ [.read f r] ++ mid) = settled file before := by
    rw [settled_of_quiet hp1.of_append hmid]
    simp [FileEvent.after]
  rw [settled_of_quiet hp2.of_append hmid', settled_append, hset1] at hf'
  rw [hset1] at hfound
  cases hends with
  | committed b _ _ hsome _ henc hleft =>
    have hfile : f' = f ++ utf8 e.record := by
      rw [hf', hf, ← hfound b hsome]
      simp [FileEvent.after, hsome, hleft, EndedWrite.record]
    obtain ⟨x, rfl, hx, hrx⟩ := readText_eq_some.1 htext
    have htext2 : readText (utf8 (x ++ e.record)) = some (universalNewlines (x ++ e.record)) :=
      readText_eq_some.2 ⟨_, rfl, by simp [hx, EndedWrite.record, henc], rfl⟩
    rw [hfile, ← utf8_append, htext2, Option.some.injEq] at htext'
    have hlast : (utf8 x).getLast? = some 13 ↔ x.getLast? = some 13 :=
      utf8_getLast (a := 13) (by decide)
    rw [← htext', hrx, ne_eq, hlast]
    exact universalNewlines_append_eq_iff rfl
  | refused ho hok =>
    rw [e.succeeded_ok ho, hok] at he
    cases he
  | failed _ ho =>
    rw [e.succeeded_error ho] at he
    cases he
  | torn _ _ ho =>
    rw [e.succeeded_error ho] at he
    cases he

end Reads

/-! ### A carriage return -/

/-- A read, a write of `x` and a read. -/
def readWriteReadRun {T : Type} (t : T) (x : Text) : List (T × CallAct) :=
  let read := [(t, .call .read), (t, .step (.lock false)), (t, .step .go), (t, .step .go),
    (t, .step .go), (t, .step (.release 0)), (t, .ret)]
  let write := [(t, .call (.write (lit "U001") x)), (t, .step (.lock false)), (t, .step .go),
    (t, .step (.openAt (lit "now"))), (t, .step (.flush (utf8 (record (lit "now") (lit "U001") x)).length)),
    (t, .step .go), (t, .step (.release 0)), (t, .ret)]
  read ++ write ++ read

/-- What an event shows: a text, or a record with its success, and the last byte of the file. -/
def FileEvent.shows : FileEvent → Option Bool × Text × Option UInt8
  | .read f r => (none, r.text, f.getLast?)
  | .write e => (some e.succeeded, e.record, e.left.1.getLast?)

theorem readWriteRead_of_shows {events : List FileEvent} {c c' x : Text} {b b' b'' : Option UInt8}
    (h : events.map FileEvent.shows = [(none, c, b), (some true, x, b'), (none, c', b'')]) :
    ∃ f r e f' r', events = [.read f r, .write e, .read f' r'] ∧ r.text = c ∧ f.getLast? = b ∧
      e.succeeded = true ∧ e.record = x ∧ r'.text = c' := by
  obtain ⟨ev1, rest, rfl, h1, h⟩ := List.map_eq_cons_iff.1 h
  obtain ⟨ev2, rest, rfl, h2, h⟩ := List.map_eq_cons_iff.1 h
  obtain ⟨ev3, rest, rfl, h3, h⟩ := List.map_eq_cons_iff.1 h
  rw [List.map_eq_nil_iff] at h
  subst h
  cases ev1 with
  | write => cases h1
  | read f r =>
    cases ev2 with
    | read => cases h2
    | write e =>
      cases ev3 with
      | write => cases h3
      | read f' r' =>
        simp only [FileEvent.shows, Prod.mk.injEq, Option.some.injEq, true_and] at h1 h2 h3
        exact ⟨f, r, e, f', r', rfl, h1.1, h1.2, h2.1, h2.2.1, h3.1⟩

/-- The text `a\rb` is read as `a\nb`. -/
theorem carriageReturnRun_altered :
    ¬ ∀ s h, (auditedDataLayer (Fin 1) (utf8 (lit "log"))).Reachable (s, h) →
      ∀ before f r mid e mid' f' r' after,
        h.events = before ++ .read f r :: (mid ++ .write e :: (mid' ++ .read f' r' :: after)) →
        (∀ ev ∈ mid, ev.quiet = true) → (∀ ev ∈ mid', ev.quiet = true) → e.succeeded = true →
          r'.text = r.text ++ e.record := by
  intro hall
  have hs : ((auditedDataLayer (Fin 1) (utf8 (lit "log"))).run auditStart
      (readWriteReadRun 0 (lit "a\rb"))).map (fun p => p.2.events.map FileEvent.shows) =
        some [(none, lit "log", some 103), (some true, lit "\n[now] U001: a\rb", some 98),
          (none, lit "log\n[now] U001: a\nb", some 98)] := by decide
  obtain ⟨⟨s, h⟩, hrun, hev⟩ := Option.map_eq_some_iff.1 hs
  have hr : (auditedDataLayer (Fin 1) (utf8 (lit "log"))).Reachable (s, h) :=
    Machine.Reachable.run (s := auditStart) (.init ⟨⟨rfl, fun _ => rfl⟩, rfl⟩) hrun
  obtain ⟨f, r, e, f', r', hlog, htext, -, he, hrec, htext'⟩ := readWriteRead_of_shows hev
  have := hall s h hr [] f r [] e [] f' r' [] hlog (by simp) (by simp) he
  rw [htext, hrec, htext'] at this
  revert this
  decide

theorem plainRun_reads_back :
    ∃ s h f r e f' r', (auditedDataLayer (Fin 1) (utf8 (lit "log"))).Reachable (s, h) ∧
      h.events = [.read f r, .write e, .read f' r'] ∧ e.record = lit "\n[now] U001: a" ∧
      r'.text = r.text ++ e.record := by
  have hs : ((auditedDataLayer (Fin 1) (utf8 (lit "log"))).run auditStart
      (readWriteReadRun 0 (lit "a"))).map (fun p => p.2.events.map FileEvent.shows) =
        some [(none, lit "log", some 103), (some true, lit "\n[now] U001: a", some 97),
          (none, lit "log\n[now] U001: a", some 97)] := by decide
  obtain ⟨⟨s, h⟩, hrun, hev⟩ := Option.map_eq_some_iff.1 hs
  have hr : (auditedDataLayer (Fin 1) (utf8 (lit "log"))).Reachable (s, h) :=
    Machine.Reachable.run (s := auditStart) (.init ⟨⟨rfl, fun _ => rfl⟩, rfl⟩) hrun
  obtain ⟨f, r, e, f', r', hlog, -, hlast, he, hrec, -⟩ := readWriteRead_of_shows hev
  have hlog' : h.events = [] ++ .read f r :: ([] ++ .write e :: ([] ++ .read f' r' :: [])) := hlog
  have hback := read_back_iff hr hlog' (by simp) (by simp) he
  exact ⟨s, h, f, r, e, f', r', hr, hlog, hrec, hback.2 ⟨by rw [hrec]; decide, by rw [hlast]; decide⟩⟩

end DistRes

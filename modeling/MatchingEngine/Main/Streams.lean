import MatchingEngine.Gateway.Dispatcher
import MatchingEngine.Risk.Limits

/-!
# Report streams, connection by connection

A connection's counter and its write half are two entries of two maps, made and dropped at
different times. What the dispatcher writes to a connection is still a function of the steps about
that connection alone: the items up to the first failed write, numbered from one
(`report_streams_gapless`). The numbers are `u64`: the `2 ^ 64`th report carries zero
(`report_stream_wraps`).

* `Dispatcher.Open`: the connection has a write half, and its counter counts the reports written.
* `Dispatcher.run_open`, `Dispatcher.run_closed`: a connection after its registration, and after its
  first failed write.
-/

namespace MatchingEngine

/-- The reports written to a connection. -/
def reportsTo (c : ConnId) (outs : List (Option Report)) : List Report :=
  (outs.filterMap id).filter (fun r => r.connId = c)

/-- The items for a connection, each with whether a write would succeed. -/
def itemsTo (c : ConnId) (acts : List DispatchAct) : List ((ℕ × Event) × Bool) :=
  acts.filterMap fun
    | .register _ => none
    | .item connId engineSeq event ok => if connId = c then some ((engineSeq, event), ok) else none

/-- The item a report was written for. -/
def Report.item (r : Report) : ℕ × Event := (r.engineSeq, r.event)

namespace Dispatcher

variable {P : Profile} {d d' : Dispatcher} {act : DispatchAct} {acts : List DispatchAct} {out : Option Report}
  {outs : List (Option Report)} {c : ConnId} {k : ℕ}

/-- A step about another connection. -/
theorem step_other (h : d.step P act = .ok (d', out)) (hc : act.conn ≠ c) :
    (c ∈ d'.writers ↔ c ∈ d.writers) ∧ d'.seqs.lookup c = d.seqs.lookup c ∧ reportsTo c [out] = [] := by
  rcases step_cases h with ⟨c', rfl, rfl, rfl⟩ | ⟨c', e, ev, seq, bytes, rfl, -, -, -, rfl, rfl⟩ |
    ⟨c', e, ev, ok, seq, rfl, -, rfl, rfl⟩
  · have hne : c ≠ c' := fun heq => hc heq.symm
    exact ⟨by simp [hne], rfl, rfl⟩
  · have hne : c ≠ c' := fun heq => hc heq.symm
    refine ⟨Iff.rfl, Finmap.lookup_insert_of_ne _ hne, ?_⟩
    simp [reportsTo, hne.symm]
  · have hne : c ≠ c' := fun heq => hc heq.symm
    refine ⟨by simp [hne], ?_, rfl⟩
    rw [Finmap.lookup_erase_ne hne, Finmap.lookup_insert_of_ne _ hne]

theorem reportsTo_cons (c : ConnId) (out : Option Report) (outs : List (Option Report)) :
    reportsTo c (out :: outs) = reportsTo c [out] ++ reportsTo c outs := by
  unfold reportsTo
  rw [← List.filter_append, ← List.filterMap_append]
  rfl

theorem reportsTo_conn {r : Report} (h : r ∈ reportsTo c outs) : r.connId = c := by simpa using (List.mem_filter.1 h).2

theorem itemsTo_cons_other (hc : act.conn ≠ c) : itemsTo c (act :: acts) = itemsTo c acts := by
  cases act with
  | register c' => rfl
  | item c' e ev ok =>
    unfold itemsTo
    rw [List.filterMap_cons_none]
    exact if_neg hc

theorem itemsTo_cons_item (e : ℕ) (ev : Event) (ok : Bool) :
    itemsTo c (.item c e ev ok :: acts) = ((e, ev), ok) :: itemsTo c acts := by
  unfold itemsTo
  rw [List.filterMap_cons_some]
  exact if_pos rfl

/-- The connection has a write half, and `k` reports were written to it. -/
structure Open (P : Profile) (c : ConnId) (k : ℕ) (d : Dispatcher) : Prop where
  writer : c ∈ d.writers
  seq : P.u64.val k = some ((d.seqs.lookup c).getD 0)

/-- **Nothing is written to a connection without a write half**, until it is registered. -/
theorem run_closed (hclosed : c ∉ d.writers) (hreg : .register c ∉ acts) (hrun : run (step P) d acts = .ok (d', outs)) :
    reportsTo c outs = [] := by
  induction acts generalizing d outs with
  | nil =>
    simp only [run_nil, Except.ok.injEq, Prod.mk.injEq] at hrun
    rw [← hrun.2]
    rfl
  | cons act acts ih =>
    rw [List.mem_cons, not_or] at hreg
    obtain ⟨d₁, out, outs', h1, h2, rfl⟩ := run_cons_inv hrun
    rw [reportsTo_cons]
    by_cases hc : act.conn = c
    · -- a turn for it writes nothing, and leaves it without
      rcases step_cases h1 with ⟨c', rfl, -⟩ | ⟨c', e, ev, seq, bytes, rfl, hw, -⟩ |
        ⟨c', e, ev, ok, seq, rfl, -, rfl, rfl⟩
      · exact absurd (congrArg DispatchAct.register hc.symm) hreg.1
      · exact absurd (hc ▸ hw) hclosed
      · rw [ih (fun h => hclosed (Finset.mem_of_mem_erase h)) hreg.2 h2]
        rfl
    · obtain ⟨hw, -, hout⟩ := step_other h1 hc
      rw [hout, ih (fun h => hclosed (hw.1 h)) hreg.2 h2]
      rfl

/-- The reports to a connection: what they carry, and that each is numbered next. -/
structure Numbered (P : Profile) (k : ℕ) (items : List (ℕ × Event)) (reports : List Report) : Prop where
  items : reports.map Report.item = items
  stamps : ∀ j r, reports[j]? = some r → P.u64.val ((k + j + 1 : ℕ) : ℤ) = some r.seq
  bytes : ∀ r ∈ reports, Encodes (encodeEvent r.seq (some r.engineSeq) r.event) r.bytes

theorem Numbered.nil (P : Profile) (k : ℕ) : Numbered P k [] [] := ⟨rfl, by simp, by simp⟩

theorem Numbered.cons {items : List (ℕ × Event)} {reports : List Report} {r : Report}
    (h : Numbered P (k + 1) items reports) (hseq : P.u64.val ((k + 1 : ℕ) : ℤ) = some r.seq)
    (hbytes : Encodes (encodeEvent r.seq (some r.engineSeq) r.event) r.bytes) :
    Numbered P k (r.item :: items) (r :: reports) := by
  refine ⟨by rw [List.map_cons, h.items], fun j r' hj => ?_, List.forall_mem_cons.2 ⟨hbytes, h.bytes⟩⟩
  cases j with
  | zero =>
    obtain rfl := Option.some.inj hj
    exact hseq
  | succ j =>
    have hnext := h.stamps j r' hj
    rwa [show k + 1 + j + 1 = k + (j + 1) + 1 by omega] at hnext

/-- **From its registration on**, the items for a connection are written up to the first write that fails. -/
theorem run_open (hopen : d.Open P c k) (hreg : .register c ∉ acts) (hrun : run (step P) d acts = .ok (d', outs)) :
    Numbered P k (((itemsTo c acts).takeWhile Prod.snd).map Prod.fst) (reportsTo c outs) := by
  induction acts generalizing d outs k with
  | nil =>
    simp only [run_nil, Except.ok.injEq, Prod.mk.injEq] at hrun
    rw [← hrun.2]
    exact .nil P k
  | cons act acts ih =>
    rw [List.mem_cons, not_or] at hreg
    obtain ⟨d₁, out, outs', h1, h2, rfl⟩ := run_cons_inv hrun
    rw [reportsTo_cons]
    by_cases hc : act.conn = c
    · rcases step_cases h1 with ⟨c', rfl, -⟩ | ⟨c', e, ev, seq, bytes, rfl, -, hseq, hbytes, rfl, rfl⟩ |
        ⟨c', e, ev, ok, seq, rfl, hfail, rfl, rfl⟩
      · exact absurd (congrArg DispatchAct.register hc.symm) hreg.1
      · obtain rfl : c' = c := hc
        have hnext : P.u64.val ((k + 1 : ℕ) : ℤ) = some seq := by
          rw [← hseq]
          exact (Word.add (n := 1) hopen.seq).symm
        rw [itemsTo_cons_item, List.takeWhile_cons_of_pos rfl, List.map_cons]
        have hopen' : Open P c' (k + 1) ⟨d.writers, d.seqs.insert c' seq⟩ :=
          ⟨hopen.writer, by rw [Finmap.lookup_insert]; exact hnext⟩
        have hone : reportsTo c' [some ⟨c', seq, e, ev, bytes⟩] = [⟨c', seq, e, ev, bytes⟩] := by simp [reportsTo]
        rw [hone]
        exact (ih hopen' hreg.2 h2).cons (r := ⟨c', seq, e, ev, bytes⟩) hnext hbytes
      · -- the write half goes with the first write that fails
        obtain rfl : c' = c := hc
        obtain rfl : ok = false := by
          cases ok with
          | false => rfl
          | true => exact absurd ⟨hopen.writer, rfl⟩ hfail
        rw [itemsTo_cons_item, List.takeWhile_cons_of_neg (by simp), run_closed (Finset.notMem_erase _ _) hreg.2 h2]
        exact .nil P k
    · obtain ⟨hw, hseqs, hout⟩ := step_other h1 hc
      rw [hout, itemsTo_cons_other hc]
      exact ih ⟨hw.2 hopen.writer, hseqs ▸ hopen.seq⟩ hreg.2 h2

/-- **A whole run**, for a connection registered before its first item, if at all. -/
theorem run_reports (hreg : .register c ∉ (acts.filter (fun act => act.conn = c)).tail) (hclosed : c ∉ d.writers)
    (hfresh : d.seqs.lookup c = none) (hrun : run (step P) d acts = .ok (d', outs)) :
    Numbered P 0 (if .register c ∈ acts then ((itemsTo c acts).takeWhile Prod.snd).map Prod.fst else [])
      (reportsTo c outs) := by
  induction acts generalizing d outs with
  | nil =>
    simp only [run_nil, Except.ok.injEq, Prod.mk.injEq] at hrun
    rw [← hrun.2]
    exact .nil P 0
  | cons act acts ih =>
    by_cases hc : act.conn = c
    · -- the first step about it is its registration, or it has none
      rw [List.filter_cons_of_pos (by simpa using hc), List.tail_cons, List.mem_filter] at hreg
      have hno : .register c ∉ acts := fun hmem => hreg ⟨hmem, by simp [DispatchAct.conn]⟩
      cases act with
      | register c' =>
        obtain rfl : c' = c := hc
        obtain ⟨d₁, out, outs', h1, h2, rfl⟩ := run_cons_inv hrun
        cases h1
        have hopen : Open P c' 0 ⟨insert c' d.writers, d.seqs⟩ :=
          ⟨Finset.mem_insert_self _ _, by rw [hfresh]; exact P.u64.zero⟩
        have hnumbered := run_open hopen hno h2
        rw [if_pos List.mem_cons_self]
        exact hnumbered
      | item c' e ev ok =>
        have hnone : .register c ∉ DispatchAct.item c' e ev ok :: acts := by simpa using hno
        rw [if_neg hnone, run_closed hclosed hnone hrun]
        exact .nil P 0
    · rw [List.filter_cons_of_neg (by simpa using hc)] at hreg
      obtain ⟨d₁, out, outs', h1, h2, rfl⟩ := run_cons_inv hrun
      obtain ⟨hw, hseqs, hout⟩ := step_other h1 hc
      rw [reportsTo_cons, hout, itemsTo_cons_other hc]
      have hmem : .register c ∈ act :: acts ↔ .register c ∈ acts := by
        rw [List.mem_cons, or_iff_right]
        intro heq
        exact hc (heq ▸ rfl)
      simp only [hmem]
      exact ih hreg (fun h => hclosed (hw.1 h)) (hseqs.trans hfresh) h2

/-- The items determine the reports. -/
theorem Numbered.unique {items : List (ℕ × Event)} {reports reports' : List Report} (h : Numbered P k items reports)
    (h' : Numbered P k items reports') (hc : ∀ r ∈ reports, r.connId = c) (hc' : ∀ r ∈ reports', r.connId = c) :
    reports = reports' := by
  have hlen : reports.length = reports'.length := by
    rw [← List.length_map (f := Report.item), h.items, ← h'.items, List.length_map]
  refine List.ext_getElem hlen fun j hj hj' => ?_
  have hseq : reports[j].seq = reports'[j].seq := by
    have h1 := h.stamps j _ (List.getElem?_eq_getElem hj)
    have h2 := h'.stamps j _ (List.getElem?_eq_getElem hj')
    exact Option.some.inj (h1.symm.trans h2)
  have hitem : reports[j].item = reports'[j].item := by
    have heq : (reports.map Report.item)[j]? = (reports'.map Report.item)[j]? := by rw [h.items, h'.items]
    rw [List.getElem?_map, List.getElem?_map, List.getElem?_eq_getElem hj, List.getElem?_eq_getElem hj'] at heq
    exact Option.some.inj heq
  obtain ⟨hengine, hevent⟩ := Prod.mk.inj hitem
  have hbytes : reports[j].bytes = reports'[j].bytes := by
    have h1 := h.bytes _ (List.getElem_mem hj)
    have h2 := h'.bytes _ (List.getElem_mem hj')
    rw [hseq, hengine, hevent] at h1
    exact h1.unique h2
  exact Report.ext ((hc _ (List.getElem_mem hj)).trans (hc' _ (List.getElem_mem hj')).symm) hseq hengine hevent hbytes

/-- What counts for a connection is what is about it. -/
theorem itemsTo_filter (c : ConnId) (acts : List DispatchAct) :
    itemsTo c (acts.filter (fun act => act.conn = c)) = itemsTo c acts := by
  induction acts with
  | nil => rfl
  | cons act acts ih =>
    by_cases hc : act.conn = c
    · rw [List.filter_cons_of_pos (by simpa using hc)]
      cases act with
      | register c' => exact ih
      | item c' e ev ok =>
        obtain rfl : c' = c := hc
        rw [itemsTo_cons_item, itemsTo_cons_item, ih]
    · rw [List.filter_cons_of_neg (by simpa using hc), itemsTo_cons_other hc, ih]

theorem register_mem_filter (c : ConnId) (acts : List DispatchAct) :
    .register c ∈ acts.filter (fun act => act.conn = c) ↔ .register c ∈ acts := by
  rw [List.mem_filter]
  exact and_iff_left (by simp [DispatchAct.conn])

/-- Nothing is written to a connection after a write that failed. -/
theorem run_failed {before after : List DispatchAct} {e : ℕ} {ev : Event}
    (hreg : .register c ∉ ((before ++ .item c e ev false :: after).filter (fun act => act.conn = c)).tail)
    (hrun : run (step P) d (before ++ .item c e ev false :: after) = .ok (d', outs)) :
    reportsTo c (outs.drop before.length) = [] := by
  obtain ⟨d₁, outs₁, outs₂, h1, h2, rfl⟩ := run_append_inv hrun
  obtain ⟨d₂, out, outs₃, h3, h4, rfl⟩ := run_cons_inv h2
  -- its only registration came before
  have hno : .register c ∉ after := by
    intro hmem
    refine hreg ?_
    rw [List.filter_append, List.filter_cons_of_pos (by simp [DispatchAct.conn])]
    have hmem' := (register_mem_filter c after).2 hmem
    cases before.filter (fun act => act.conn = c) with
    | nil => exact hmem'
    | cons x xs => exact List.mem_append_right _ (List.mem_cons_of_mem _ hmem')
  rw [← run_length h1, List.drop_left, reportsTo_cons]
  rcases step_cases h3 with ⟨c', h, -⟩ | ⟨c', e', ev', seq, bytes, h, -⟩ | ⟨c', e', ev', ok, seq, h, -, rfl, rfl⟩
  · cases h
  · cases h
  · cases h
    rw [run_closed (Finset.notMem_erase _ _) hno h4]
    rfl

end Dispatcher

/-- **Report streams are gapless, connection by connection.** Whatever items come for whatever connections, and
whichever writes fail, the dispatcher goes on (as long as counting does not panic). For a connection registered at
most once and before its first item: the `n`th report written to it carries the number `n`, as the `u64` counter
holds it, so the numbers are `1, 2, 3, …` as long as there are fewer than `2 ^ 64`; the reports carry the items that
came for it, in order, up to the first write that failed; nothing is written to it after that; and what is
written depends on nothing but the steps about that connection. -/
theorem report_streams_gapless (P : Profile) {acts : List DispatchAct} {c : ConnId}
    (hreg : .register c ∉ (acts.filter (fun act => act.conn = c)).tail) :
    (P.Total → ∃ d outs, run (Dispatcher.step P) Dispatcher.start acts = .ok (d, outs)) ∧
    ∀ d outs, run (Dispatcher.step P) Dispatcher.start acts = .ok (d, outs) →
      (∀ j r, (reportsTo c outs)[j]? = some r → P.u64.val ((j + 1 : ℕ) : ℤ) = some r.seq) ∧
      (P.Faithful → (reportsTo c outs).length < 2 ^ 64 →
        (reportsTo c outs).map Report.seq = List.range' 1 (reportsTo c outs).length) ∧
      (reportsTo c outs).map Report.item =
        (if .register c ∈ acts then ((itemsTo c acts).takeWhile Prod.snd).map Prod.fst else []) ∧
      (∀ r ∈ reportsTo c outs, Encodes (encodeEvent r.seq (some r.engineSeq) r.event) r.bytes) ∧
      (∀ before e ev after, acts = before ++ .item c e ev false :: after →
        reportsTo c (outs.drop before.length) = []) ∧
      ∀ acts' d' outs', run (Dispatcher.step P) Dispatcher.start acts' = .ok (d', outs') →
        acts'.filter (fun act => act.conn = c) = acts.filter (fun act => act.conn = c) →
        reportsTo c outs' = reportsTo c outs := by
  refine ⟨fun hP => Dispatcher.run_total hP acts, fun d outs hrun => ?_⟩
  have h := Dispatcher.run_reports hreg (Finset.notMem_empty c) (Finmap.lookup_empty c) hrun
  have hstamps : ∀ j r, (reportsTo c outs)[j]? = some r → P.u64.val ((j + 1 : ℕ) : ℤ) = some r.seq := by
    intro j r hr
    have hj := h.stamps j r hr
    rwa [Nat.zero_add] at hj
  refine ⟨hstamps, fun hP hfew => ?_, h.items, h.bytes, ?_, ?_⟩
  · refine List.ext_getElem (by simp) fun j hj hj' => ?_
    rw [List.length_map] at hj
    have hseq := hstamps j _ (List.getElem?_eq_getElem hj)
    rw [hP.u64 (j + 1) (by omega)] at hseq
    rw [List.getElem_map, List.getElem_range', ← Option.some.inj hseq]
    omega
  · rintro before e ev after rfl
    exact Dispatcher.run_failed hreg hrun
  · intro acts' d' outs' hrun' hsame
    have h' := Dispatcher.run_reports (hsame ▸ hreg) (Finset.notMem_empty c) (Finmap.lookup_empty c) hrun'
    have hmem : .register c ∈ acts' ↔ .register c ∈ acts := by
      rw [← Dispatcher.register_mem_filter c acts', hsame, Dispatcher.register_mem_filter]
    rw [← Dispatcher.itemsTo_filter c acts', hsame, Dispatcher.itemsTo_filter] at h'
    simp only [hmem] at h'
    exact h'.unique h (fun _ => Dispatcher.reportsTo_conn) (fun _ => Dispatcher.reportsTo_conn)

/-- Two connections in turns; the second write to the first connection fails, and a later item for it makes a new
counter for nobody. -/
theorem report_streams_gapless_two :
    ∃ d outs, run (Dispatcher.step .release) Dispatcher.start
        [.register 1, .item 1 1 (.accepted 7 1 5) true, .register 2, .item 2 2 (.accepted 8 1 5) true,
         .item 1 3 (.cancelled 7 1) false, .item 2 4 (.cancelled 8 1) true, .item 1 5 (.accepted 7 2 5) true,
         .item 2 6 (.accepted 8 2 5) true] = .ok (d, outs) ∧
      (reportsTo 1 outs).map Report.item = [(1, .accepted 7 1 5)] ∧
      (reportsTo 2 outs).map Report.seq = [1, 2, 3] ∧
      (reportsTo 2 outs).map Report.item = [(2, .accepted 8 1 5), (4, .cancelled 8 1), (6, .accepted 8 2 5)] := by
  obtain ⟨⟨d, outs⟩, hrun⟩ := exists_of_isOk (x := run (Dispatcher.step .release) Dispatcher.start
    [.register 1, .item 1 1 (.accepted 7 1 5) true, .register 2, .item 2 2 (.accepted 8 1 5) true,
     .item 1 3 (.cancelled 7 1) false, .item 2 4 (.cancelled 8 1) true, .item 1 5 (.accepted 7 2 5) true,
     .item 2 6 (.accepted 8 2 5) true]) (by decide +kernel)
  obtain ⟨-, -, hone, -⟩ := (report_streams_gapless .release (c := 1) (by decide)).2 d outs hrun
  obtain ⟨-, hseq, htwo, -⟩ := (report_streams_gapless .release (c := 2) (by decide)).2 d outs hrun
  have hitems : (reportsTo 2 outs).map Report.item =
      [(2, .accepted 8 1 5), (4, .cancelled 8 1), (6, .accepted 8 2 5)] := htwo.trans (by decide)
  have hlen : (reportsTo 2 outs).length = 3 := by
    rw [← List.length_map (f := Report.item), hitems]
    rfl
  refine ⟨d, outs, hrun, hone.trans (by decide), ?_, hitems⟩
  rw [hseq Profile.release_faithful (by rw [hlen]; norm_num), hlen]
  rfl

namespace Dispatcher

variable (e : ℕ) (ev : Event)

/-- As many reports as items, if no write fails. -/
theorem run_written (P : Profile) (hP : P.Total) (c : ConnId) (n : ℕ) :
    ∃ d outs, run (step P) start (.register c :: List.replicate n (.item c e ev true)) = .ok (d, outs) ∧
      Numbered P 0 (List.replicate n (e, ev)) (reportsTo c outs) := by
  obtain ⟨d, outs, hrun⟩ := run_total hP (.register c :: List.replicate n (.item c e ev true))
  have hreg : DispatchAct.register c ∉
      ((DispatchAct.register c :: List.replicate n (.item c e ev true)).filter (fun act => act.conn = c)).tail := by
    rw [List.filter_cons_of_pos (by simp [DispatchAct.conn]), List.tail_cons, register_mem_filter]
    intro hmem
    cases List.eq_of_mem_replicate hmem
  have h := run_reports hreg (Finset.notMem_empty c) (Finmap.lookup_empty c) hrun
  have hitems : itemsTo c (.register c :: List.replicate n (.item c e ev true)) = List.replicate n ((e, ev), true) := by
    show itemsTo c (List.replicate n (.item c e ev true)) = _
    unfold itemsTo
    rw [List.filterMap_replicate_of_some]
    exact if_pos rfl
  rw [if_pos List.mem_cons_self, hitems, List.takeWhile_replicate, if_pos rfl, List.map_replicate] at h
  exact ⟨d, outs, hrun, h⟩

end Dispatcher

/-- **Numbers wrap**: the `2 ^ 64`th report of a connection carries zero. -/
theorem report_stream_wraps :
    ∃ d outs, run (Dispatcher.step .release) Dispatcher.start
        (.register 1 :: List.replicate (2 ^ 64) (.item 1 1 (.cancelled 7 1) true)) = .ok (d, outs) ∧
      ∃ r, (reportsTo 1 outs)[2 ^ 64 - 1]? = some r ∧ r.seq = 0 ∧ ¬ r.seq = 2 ^ 64 := by
  obtain ⟨d, outs, hrun, h⟩ := Dispatcher.run_written 1 (.cancelled 7 1) .release Profile.release_total 1 (2 ^ 64)
  have hlen : (reportsTo 1 outs).length = 2 ^ 64 := by
    rw [← List.length_map (f := Report.item), h.items, List.length_replicate]
  have hlast : 2 ^ 64 - 1 < (reportsTo 1 outs).length := by
    rw [hlen]
    norm_num
  refine ⟨d, outs, hrun, _, List.getElem?_eq_getElem hlast, ?_⟩
  have hseq := h.stamps _ _ (List.getElem?_eq_getElem hlast)
  have hval : Profile.release.u64.val ((0 + (2 ^ 64 - 1) + 1 : ℕ) : ℤ) = some 0 := Word.wrapping_val 64 _
  rw [hval] at hseq
  have hzero := (Option.some.inj hseq).symm
  refine ⟨hzero, ?_⟩
  rw [hzero]
  norm_num

end MatchingEngine

import KubeFdb.System.ListedValues

/-!
# compaction のない store の一覧

compaction がなければ、record は増えるだけである。上限なしの `List` は、revision を指定してもしなくても、batch の間に
どんな書き込みが挟まっても、失敗せずに、最初の batch の時点で決まる窓の record から選ぶ。連番の設定では、いつもそうで
ある。

* `written_grows` — 新しい record は、その前の最新の revision より後ろにある
* `PinnedScan.answer` — 終わった一覧の答え
-/

namespace KubeFdb

open Tuple

variable {cfg : Config} {st t t' : Store}

/-! ## 書き込みだけの手 -/

/-- 連番の設定では、書き込みと read version のほかは何も起きない。 -/
theorem sequential_label (hseq : cfg.useSequentialId = true) (h : st.Written cfg)
    {a : StoreLabel} (ht : st.step cfg a = some t) : t = st ∨ a.isClient = true := by
  cases a with
  | tick v => exact Or.inr rfl
  | write op lastWriteUUID uuid v => exact Or.inr rfl
  | startCompact endRev =>
    rw [Store.step, if_pos hseq] at ht
    exact Or.inl (Option.some.inj ht).symm
  | compactBatch i n v known =>
    simp only [Store.step, h.inv.1.sequential hseq, List.getElem?_nil] at ht
    split at ht <;> cases ht

theorem written_step (h : st.Written cfg) {a : StoreLabel} (ht : st.step cfg a = some t)
    (ha : t = st ∨ a.isClient = true) : t.Written cfg := by
  rcases ha with rfl | ha
  · exact h
  · obtain ⟨as, hclient, hr⟩ := h
    refine ⟨as ++ [a], fun b hb => ?_, (runSteps_concat hr a).trans ht⟩
    rcases List.mem_append.mp hb with hb | hb
    · exact hclient b hb
    · rw [List.mem_singleton.mp hb]
      exact ha

/-- 増える record は、その前の最新の revision より後ろにある。 -/
theorem written_grows (h : st.Written cfg) {a : StoreLabel} (ht : st.step cfg a = some t)
    (ha : t = st ∨ a.isClient = true) :
    st.db.getLatestRev cfg ≤ t.db.getLatestRev cfg ∧ ∃ ext, t.committed = st.committed ++ ext ∧
      ∀ r ∈ ext, st.db.getLatestRev cfg < r.revision := by
  rcases ha with rfl | ha
  · exact ⟨le_rfl, [], (List.append_nil _).symm, fun _ hr => absurd hr List.not_mem_nil⟩
  · have hinv := h.inv.1
    obtain ⟨recs', he, -⟩ := Store.inv_step hinv ht
    refine ⟨he.latest_le hinv, ?_⟩
    cases he with
    | idle _ _ v hv hv63 calls hcalls =>
      exact ⟨[], (List.append_nil _).symm, fun _ hr => absurd hr List.not_mem_nil⟩
    | wrote op lastWriteUUID uuid v record size hcan ht hw =>
      refine ⟨_, rfl, fun r hr => ?_⟩
      rw [List.mem_singleton.mp hr]
      exact (incrementAndGet_spec hinv.bounded hcan).2
    | compacted i n v known endRev c c' db' begin_ hcan hi hrun hb hbatch heq => cases ha

/-- `t` が、いまの store `st` の前の時点であること。 -/
structure Store.Before (cfg : Config) (t st : Store) : Prop where
  written : t.Written cfg
  latest_le : t.db.getLatestRev cfg ≤ st.db.getLatestRev cfg
  committed : st.committed.filter (fun r => upTo (t.db.getLatestRev cfg) r.rev) = t.committed

theorem Store.Before.refl (h : st.Written cfg) : st.Before cfg st where
  written := h
  latest_le := le_rfl
  committed := List.filter_eq_self.mpr fun r hr => decide_eq_true (h.inv.1.bounded.le r hr)

/-- 後から足した record は、前の時点の窓に入らない。 -/
theorem Store.Before.filter_step (hb : t.Before cfg st) (h : st.Written cfg) {a : StoreLabel}
    (ht : st.step cfg a = some t') (ha : t' = st ∨ a.isClient = true) {w : Versionstamp → Bool}
    (hw : ∀ rev, w rev = true → upTo (t.db.getLatestRev cfg) rev = true) :
    t'.committed.filter (fun r => w r.rev) = st.committed.filter (fun r => w r.rev) := by
  obtain ⟨-, ext, hcommitted, hext⟩ := written_grows h ht ha
  have hnone : ext.filter (fun r => w r.rev) = [] := by
    refine List.filter_eq_nil_iff.mpr fun r hr hin => ?_
    have hle : r.revision ≤ t.db.getLatestRev cfg := of_decide_eq_true (hw r.rev hin)
    have hlt := hext r hr
    have := hb.latest_le
    omega
  rw [hcommitted, List.filter_append, hnone, List.append_nil]

theorem Store.Before.step (hb : t.Before cfg st) (h : st.Written cfg) {a : StoreLabel}
    (ht : st.step cfg a = some t') (ha : t' = st ∨ a.isClient = true) : t.Before cfg t' where
  written := hb.written
  latest_le := hb.latest_le.trans (written_grows h ht ha).1
  committed := by
    rw [hb.filter_step h ht ha fun rev hrev => hrev]
    exact hb.committed

/-! ## 途中の一覧 -/

/-- 一覧の窓に入る record。`t` は最初の batch が読んだ store である。 -/
def inWindowAt (cfg : Config) (R : Int) (t st : Store) : List RevRecord :=
  st.committed.filter (fun r => pinUpTo R (t.db.getLatestRev cfg) r.rev)

/-- 一覧の進み具合。 -/
inductive PinnedScan (cfg : Config) (st : Store) (prefix_ : Key) (R : Int)
    (call : ListCall ListCollector) : Option Store → Prop
  | fresh (hcall : call = .start (newRecordCollector R (newListCollector 0 false))) :
    PinnedScan cfg st prefix_ R call none
  | reading (t : Store) (hb : t.Before cfg st) (hmax : call.collector.maxRevision = R)
      (hfirst : call.collector.firstRev = t.db.getLatestRev cfg) (read rest : List RevRecord)
      (hscan : ScanInv (listSpec cfg false 0) (pinUpTo R (t.db.getLatestRev cfg)) call read)
      (hu : Unread st.committed st.committed (inListRange prefix_ prefix_) read rest)
      (hall : ∀ r ∈ inWindowAt cfg R t st, inListRange prefix_ prefix_ r.key = true →
        r ∈ read ++ rest) :
    PinnedScan cfg st prefix_ R call (some t)
  | done (t : Store) (hb : t.Before cfg st) (hdone : call.status = .done)
      (hfirst : call.collector.firstRev = t.db.getLatestRev cfg) (picks : Picks)
      (hrec : (listSpec cfg false 0).Received call.collector.inner picks)
      (hsorted : SortedBy RevRecord.key (picks.map Prod.fst))
      (hans : ∀ r, r ∈ picks.map Prod.fst ↔ LiveAt 0 (inWindowAt cfg R t st) r ∧
        inListRange prefix_ prefix_ r.key = true) :
    PinnedScan cfg st prefix_ R call (some t)

variable {prefix_ : Key} {R : Int} {call : ListCall ListCollector} {range : Bytes × Bytes}
  {snapshot : Option Store}

/-- 一覧が表す revision。指定がなければ、答えの revision である。 -/
def listedAt (R rev : Int) : Int := if R = 0 then rev else R

theorem inWindowAt_eq_listedAt (hle : R ≤ t.db.getLatestRev cfg) :
    inWindowAt cfg R t st
      = atMost RevRecord.revision st.committed (listedAt R (t.db.getLatestRev cfg)) := by
  refine List.filter_congr fun r _ => ?_
  rw [pinUpTo, pinWindow, upTo, listedAt, Bool.eq_iff_iff]
  simp only [Bool.and_eq_true, decide_eq_true_eq]
  show (_ ∨ r.revision ≤ R) ∧ r.revision ≤ _ ↔ r.revision ≤ _
  split <;> omega

theorem inWindowAt_step (hb : t.Before cfg st) (h : st.Written cfg) {a : StoreLabel}
    (ht : st.step cfg a = some t') (ha : t' = st ∨ a.isClient = true) (R : Int) :
    inWindowAt cfg R t t' = inWindowAt cfg R t st :=
  hb.filter_step h ht ha fun _ hrev => (Bool.and_eq_true_iff.mp hrev).2

/-- store の手の後も、一覧は同じ record から選ぶ。 -/
theorem PinnedScan.store (h : st.Written cfg) {a : StoreLabel} (ht : st.step cfg a = some t)
    (ha : t = st ∨ a.isClient = true) (hp : PinnedScan cfg st prefix_ R call snapshot) :
    PinnedScan cfg t prefix_ R call snapshot := by
  obtain ⟨-, ext, hcommitted, -⟩ := written_grows h ht ha
  have hsub : ∀ r ∈ st.committed, r ∈ t.committed := fun r hr => by
    rw [hcommitted]
    exact List.mem_append_left _ hr
  cases hp with
  | fresh hcall => exact .fresh hcall
  | reading t₀ hb hmax hfirst read rest hscan hu hall =>
    have hsame := inWindowAt_step hb h ht ha R
    obtain ⟨rest', hu'⟩ : ∃ rest', Unread t.committed t.committed
        (inListRange prefix_ prefix_) read rest' :=
      exists_unread (written_step h ht ha).inv.1.tracks.holds hu.ordered_read hu.inRange
        (fun r hr => hr) fun r hr => hsub r (hu.mem_hist r (List.mem_append_left _ hr))
    refine .reading t₀ (hb.step h ht ha) hmax hfirst read rest' hscan hu' fun r hr hin => ?_
    rw [hsame] at hr
    rcases List.mem_append.mp (hall r hr hin) with hr' | hr'
    · exact List.mem_append_left _ hr'
    · obtain ⟨hm, -, hafter⟩ := (hu.mem_rest r).mp hr'
      exact List.mem_append_right _ ((hu'.mem_rest r).mpr ⟨hsub r hm, hin, hafter⟩)
  | done t₀ hb hdone hfirst picks hrec hsorted hans =>
    refine .done t₀ (hb.step h ht ha) hdone hfirst picks hrec hsorted ?_
    rw [inWindowAt_step hb h ht ha R]
    exact hans

/-- 読んだ列と残りの列が窓の record をすべて含むなら、選ばれる record は、窓の中で見える record である。 -/
theorem mem_chosenOf_window {w : Versionstamp → Bool} {hist read rest : List RevRecord}
    {inRange : Key → Bool} (hu : Unread hist hist inRange read rest)
    (hall : ∀ r ∈ hist.filter (fun r => w r.rev), inRange r.key = true → r ∈ read ++ rest)
    (r : RevRecord) :
    r ∈ chosenOf w (read ++ rest) ↔
      LiveAt 0 (hist.filter (fun r => w r.rev)) r ∧ inRange r.key = true := by
  have hin : ∀ x ∈ read ++ rest, inRange x.key = true := by
    intro x hx
    rcases List.mem_append.mp hx with hx | hx
    · exact hu.inRange x hx
    · exact ((hu.mem_rest x).mp hx).2.1
  have hwindow : ∀ {x}, x ∈ hist.filter (fun r => w r.rev) ↔ x ∈ hist ∧ w x.rev = true :=
    List.mem_filter
  unfold chosenOf
  rw [GroupScan.mem_chosen]
  constructor
  · rintro ⟨hr, hw, hl, hmax⟩
    refine ⟨⟨hwindow.mpr ⟨hu.mem_hist r hr, hw⟩, by simp [pinWindow], hl, fun x hx _ hk => ?_⟩,
      hin r hr⟩
    exact hmax x (hall x hx (by rw [hk]; exact hin r hr)) (hwindow.mp hx).2 hk
  · rintro ⟨⟨hm, -, hl, hmax⟩, hk⟩
    refine ⟨hall r hm hk, (hwindow.mp hm).2, hl, fun x hx hxw hkey => ?_⟩
    exact hmax x (hwindow.mpr ⟨hu.mem_hist x hx, hxw⟩) (by simp [pinWindow]) hkey

/-- 途中の一覧の batch。読み進めるか、見える record を渡し終える。compaction がないので失敗しない。 -/
theorem pinnedScan_batch (h : st.Written cfg) (hr : listRange prefix_ prefix_ = .ok range)
    (hb : t.Before cfg st) (hmax : call.collector.maxRevision = R)
    (hfirst : (if call.collector.firstRev = 0 then st.db.getLatestRev cfg
      else call.collector.firstRev) = t.db.getLatestRev cfg)
    {read rest : List RevRecord}
    (hscan : ScanInv (listSpec cfg false 0) (pinUpTo R (t.db.getLatestRev cfg)) call read)
    (hu : Unread st.committed st.committed (inListRange prefix_ prefix_) read rest)
    (hall : ∀ r ∈ inWindowAt cfg R t st, inListRange prefix_ prefix_ r.key = true →
      r ∈ read ++ rest)
    (hw : ∀ r ∈ st.committed,
      call.collector.inWindow r.rev = pinUpTo R (t.db.getLatestRev cfg) r.rev) (n : Nat) :
    PinnedScan cfg st prefix_ R (call.batch (RecordCollector.processor listProcessor cfg)
      (indexRange range) n st.db).1 (some t) := by
  obtain ⟨hinv, hcompact⟩ := h.inv
  have htracks := hinv.tracks
  obtain ⟨-, hbatch⟩ := hu.batch cfg htracks.holds hr hscan
    (listSpec_ready htracks false 0 _ _) hw n
  cases hbatch with
  | continued hn hadv hscan' _ =>
    refine .reading t hb (hadv.maxRevision.trans hmax) (hadv.firstRev.trans hfirst) _ _ hscan'
      (hu.advance (n + 1)) fun r hm hin => ?_
    rw [List.append_assoc, List.take_append_drop]
    exact hall r hm hin
  | finished hn hadv hdone hrec _ =>
    rw [scanOf_finish _ hu.ordered] at hrec
    refine .done t hb hdone (hadv.firstRev.trans hfirst) _ hrec ?_ fun r => ?_
    · rw [pickedOf_fst]
      exact GroupScan.chosen_sorted hu.ordered
    · rw [pickedOf_fst]
      exact mem_chosenOf_window hu hall r
  | sated m hm hadv hdone hne hwant hrec _ => cases hwant
  | compacted hfail hc picks hrec m hm hpicks =>
    have hzero : versionstampToInt64 st.db.getCompactRev = 0 := by
      rw [Db.getCompactRev, hcompact]
      rfl
    obtain ⟨hpos, hlt⟩ := hc
    omega
  | broken e hfail inner inner' now hin hend m hm hnow =>
    exact absurd hend (list_noBreak htracks.holds hin.2 (hu.sorted_of_picks hnow)
      fun c hc => hu.mem_hist _ (hu.mem_of_picks hnow c (List.mem_append_right _ hc)))

theorem PinnedScan.batch (h : st.Written cfg) (hr : listRange prefix_ prefix_ = .ok range)
    (hp : PinnedScan cfg st prefix_ R call snapshot) (hrun : call.status = .running) (n : Nat) :
    PinnedScan cfg st prefix_ R (call.batch (RecordCollector.processor listProcessor cfg)
      (indexRange range) n st.db).1 (snapshot.or (some st)) := by
  have hinv := h.inv.1
  cases hp with
  | fresh hcall =>
    obtain ⟨all, hrecs⟩ := exists_rangeRecs hinv.tracks.holds prefix_ prefix_
    refine pinnedScan_batch h hr (.refl h) (by rw [hcall]; rfl) (by rw [hcall]; rfl)
      (by rw [hcall]; exact scanInv_start _ R ⟨rfl, rfl, rfl, rfl⟩)
      (hrecs.unread fun r hm => hm)
      (fun r hm hin => (hrecs.mem_iff r).mpr ⟨List.mem_of_mem_filter hm, hin⟩) ?_ n
    -- 最初の batch は `firstRev` で絞らないが、record はどれも最新の revision 以前である
    intro r hm
    have hle : upTo (st.db.getLatestRev cfg) r.rev = true :=
      decide_eq_true (hinv.bounded.le r hm)
    rw [hcall, pinUpTo, hle]
    rfl
  | reading t hb hmax hfirst read rest hscan hu hall =>
    have hpos := hb.written.inv.1.bounded.pos
    refine pinnedScan_batch h hr hb hmax (by rw [hfirst, if_neg hpos.ne']) hscan hu hall ?_ n
    intro r _
    simp [RecordCollector.inWindow, hmax, hfirst, pinUpTo, pinWindow, upTo, hpos.ne']
  | done t hb hdone hfirst picks hrec hsorted hans =>
    rw [hdone] at hrun
    cases hrun

/-- 終わった一覧の答え。失敗するのは、最初の batch の時点でまだない revision を求めたときに限る。 -/
theorem PinnedScan.answer (hp : PinnedScan cfg st prefix_ R call snapshot)
    (hstop : call.status ≠ .running) :
    ∃ t, snapshot = some t ∧ t.Before cfg st ∧
      ((t.db.getLatestRev cfg < R ∧ listResult R call = .error .futureRev) ∨
       (R ≤ t.db.getLatestRev cfg ∧ ∃ live c,
        listResult R call = .ok (t.db.getLatestRev cfg, c) ∧
        toKeyValues cfg c.records = live.map (kvOf cfg) ∧ SortedBy RevRecord.key live ∧
        ∀ r, r ∈ live ↔ LiveAt 0 (inWindowAt cfg R t st) r ∧
          inListRange prefix_ prefix_ r.key = true)) := by
  cases hp with
  | fresh hcall =>
    rw [hcall] at hstop
    exact absurd rfl hstop
  | reading t hb hmax hfirst read rest hscan hu hall => exact absurd hscan.running hstop
  | done t hb hdone hfirst picks hrec hsorted hans =>
    refine ⟨t, rfl, hb, ?_⟩
    by_cases hR : t.db.getLatestRev cfg < R
    · exact Or.inl ⟨hR, by simp [listResult, hdone, hfirst, hR]⟩
    · refine Or.inr ⟨not_lt.mp hR, picks.map Prod.fst, call.collector.inner, ?_, ?_, hsorted, hans⟩
      · simp [listResult, hdone, hfirst, hR]
      · refine hrec.2.2.2.trans ?_
        rw [List.map_map]
        rfl

end KubeFdb

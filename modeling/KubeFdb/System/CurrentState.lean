import KubeFdb.Properties.Views
import KubeFdb.System.Store

/-!
# compaction と現在の状態

compaction の batch は、pin しない `Get` や `List` の答えを変えてはならない。鍵の最新の record が
tombstone のとき、batch はそれを読めば消す。それより古い record は、同じ batch か前の batch が
消しているはずである。ところが、前の batch が読んだときに最新で生きていた record は残っている。
その後で `Delete` が commit し、その tombstone を同じ `Compact` の後の batch が読むと、
古い record がまた見えるようになる。

答えが変わらないのは、この順に起きないとき（`NothingStranded`）であり、そのときに限る
（`current_kept_iff`）。
-/

namespace KubeFdb

open Tuple

/-- batch の手の前の条件。batch が読む tombstone が鍵の最後の record であるとき、その鍵の record は
batch の始まる位置までに残っていない。 -/
def NothingStranded (s : Store) : StoreLabel → Prop
  | .compactBatch i n _ _ => ∀ x ∈ s.compacts[i]?,
      ∀ h ∈ (unreadHeaders x.1 s.db x.2.beginKey).take (n + 1), h.2.isDelete = true →
        (∀ last ∈ s.db.getLast h.2.key, last.rev = h.1) →
        ∀ b ∈ x.2.beginKey, ∀ e ∈ s.db.byKeyAndRevision.entries, e.1.key = h.2.key →
          b < headerKey e.1.rev
  | _ => True

instance (s : Store) : (a : StoreLabel) → Decidable (NothingStranded s a)
  | .compactBatch i n _ _ => inferInstanceAs (Decidable (∀ x ∈ s.compacts[i]?,
      ∀ h ∈ (unreadHeaders x.1 s.db x.2.beginKey).take (n + 1), h.2.isDelete = true →
        (∀ last ∈ s.db.getLast h.2.key, last.rev = h.1) →
        ∀ b ∈ x.2.beginKey, ∀ e ∈ s.db.byKeyAndRevision.entries, e.1.key = h.2.key →
          b < headerKey e.1.rev))
  | .tick _ => .isTrue trivial
  | .write _ _ _ _ => .isTrue trivial
  | .startCompact _ => .isTrue trivial

/-- 最後の client の書き込みが `Delete` の鍵は、一覧に現れない。 -/
def Store.DeletedStayDead (cfg : Config) (s : Store) : Prop :=
  ∀ r, newest RevRecord.key s.committed r.key = some r → r.record.isDelete = true →
    ∀ keysOnly splits rev kvs, list cfg r.key r.key 0 0 keysOnly splits s.db = .ok (rev, kvs) →
      ∀ kv ∈ kvs, kv.key ≠ r.key

/-- compaction の batch が現在の状態を変えないこと。 -/
def CurrentKept (cfg : Config) (s : Store) (a : StoreLabel) : Prop :=
  ∀ s', s.step cfg a = some s' →
    ((∃ i n v known, a = .compactBatch i n v known) → SameAnswers cfg 0 s.db s'.db) ∧
      s'.DeletedStayDead cfg

variable {cfg : Config} {s s' : Store} {recs recs' : List RevRecord} {a : StoreLabel}

/-! ## 列の上の条件 -/

/-- batch の始まる位置までに残っている record は、前の batch が読んで残したものだから生きている。 -/
structure Swept (s : Store) (recs : List RevRecord) : Prop where
  committed : ∀ x ∈ s.compacts, ∀ b, x.2.beginKey = some (chunkKey b maxInt64) →
    ∃ r ∈ s.committed, r.rev = b
  live : ∀ x ∈ s.compacts, ∀ b, x.2.beginKey = some (chunkKey b maxInt64) →
    ∀ r ∈ recs, r.rev ≤ b → r.live = true

/-- `NothingStranded` を列の上で述べたもの。 -/
def NoStrandedRecord (recs visited : List RevRecord) (begin_ : Option Versionstamp) : Prop :=
  ∀ t ∈ visited, t.record.isDelete = true → newest RevRecord.key recs t.key = some t →
    ∀ b ∈ begin_, ∀ r ∈ recs, r.key = t.key → b < r.rev

section Batch

variable {begin_ : Option Versionstamp} {endRev : Int} {n : Nat}

theorem liveAt_zero_iff {r : RevRecord} (hs : SortedBy RevRecord.rev recs) :
    LiveAt 0 recs r ↔ newest RevRecord.key recs r.key = some r ∧ r.live = true := by
  rw [newest_eq_some_iff hs]
  constructor
  · rintro ⟨hm, -, hl, hmax⟩
    exact ⟨⟨hm, rfl, fun r' hr' hk => hmax r' hr' (by simp [pinWindow]) hk⟩, hl⟩
  · rintro ⟨⟨hm, -, hmax⟩, hl⟩
    exact ⟨hm, by simp [pinWindow], hl, fun r' hr' _ hk => hmax r' hr' hk⟩

/-- 最新で生きている record は、batch の後も最新で生きている。 -/
theorem LiveAt.compact {r : RevRecord} (h : LiveAt 0 recs r) (visited : List RevRecord) :
    LiveAt 0 (compactRecs recs visited) r := by
  refine ⟨mem_compactRecs.mpr ⟨h.mem, ?_⟩, h.window, h.live, fun r' hr' hw hk =>
    h.newest r' (mem_compactRecs.mp hr').1 hw hk⟩
  rintro ⟨-, hdis⟩
  rcases discards_iff.mp hdis with ⟨r', hr', hk, hlt⟩ | hdel
  · exact absurd (h.newest r' hr' (by simp [pinWindow]) hk) (not_le.mpr hlt)
  · have hl := h.live
    simp [RevRecord.live, hdel] at hl

/-- 取り残された record がなければ、batch の後に見える record は前にも見えていた。 -/
theorem LiveAt.of_compact (hs : SortedBy RevRecord.rev recs)
    (hno : NoStrandedRecord recs (compactVisits recs begin_ endRev n) begin_) {r : RevRecord}
    (h : LiveAt 0 (compactRecs recs (compactVisits recs begin_ endRev n)) r) : LiveAt 0 recs r := by
  obtain ⟨hr, hkeep⟩ := mem_compactRecs.mp h.mem
  obtain ⟨t, ht⟩ := exists_newest RevRecord.key hr rfl
  obtain ⟨htm, htk, htmax⟩ := (newest_eq_some_iff hs).mp ht
  by_cases heq : t = r
  · subst heq
    exact (liveAt_zero_iff hs).mpr ⟨ht, h.live⟩
  exfalso
  have hlt : r.rev < t.rev :=
    lt_of_le_of_ne (htmax r hr rfl) (fun he => heq (hs.eq_of_index_eq htm hr he.symm))
  -- 最新の record は消えたのだから、読まれた tombstone である
  have hgone : t ∈ compactVisits recs begin_ endRev n ∧ discards recs t = true := by
    by_contra hc
    exact absurd (h.newest t (mem_compactRecs.mpr ⟨htm, hc⟩) (by simp [pinWindow]) htk)
      (not_le.mpr hlt)
  have hdel : t.record.isDelete = true := by
    rcases discards_iff.mp hgone.2 with ⟨r', hr', hk', hlt'⟩ | hd
    · exact absurd (htmax r' hr' (hk'.trans htk)) (not_le.mpr hlt')
    · exact hd
  have hafter : ∀ b ∈ begin_, b < r.rev := fun b hb =>
    hno t hgone.1 hdel (by rw [htk]; exact ht) b hb r hr htk.symm
  have hcut := (mem_compactTodo.mp (mem_of_mem_compactVisits hgone.1)).2.2
  have hvis := mem_compactVisits_of_le hs hgone.1
    (mem_compactTodo.mpr ⟨hr, hafter, hlt.le.trans hcut⟩) hlt.le
  exact hkeep ⟨hvis, discards_iff.mpr (Or.inl ⟨t, htm, htk, hlt⟩)⟩

/-- 取り残された record があれば、その鍵がまた見えるようになる。 -/
theorem exists_liveAt_of_stranded (hs : SortedBy RevRecord.rev recs)
    (hlive : ∀ b ∈ begin_, ∀ r ∈ recs, r.rev ≤ b → r.live = true)
    (hno : ¬ NoStrandedRecord recs (compactVisits recs begin_ endRev n) begin_) :
    ∃ r, LiveAt 0 (compactRecs recs (compactVisits recs begin_ endRev n)) r ∧ ¬ LiveAt 0 recs r := by
  unfold NoStrandedRecord at hno
  push Not at hno
  obtain ⟨t, ht, hdel, hnew, b, hb, r, hr, hk, hle⟩ := hno
  obtain ⟨htm, -, htmax⟩ := (newest_eq_some_iff hs).mp hnew
  -- この鍵の record で残るのは、読まれなかったものだけである
  have hunread : ∀ r' ∈ compactRecs recs (compactVisits recs begin_ endRev n), r'.key = t.key →
      r' ∉ compactVisits recs begin_ endRev n := by
    intro r' hr' hk' hvis
    obtain ⟨hr'm, hkeep⟩ := mem_compactRecs.mp hr'
    refine hkeep ⟨hvis, discards_iff.mpr ?_⟩
    rcases (htmax r' hr'm hk').lt_or_eq with hlt | heq
    · exact Or.inl ⟨t, htm, hk'.symm, hlt⟩
    · exact Or.inr (hs.eq_of_index_eq hr'm htm heq ▸ hdel)
  have hrm : r ∈ compactRecs recs (compactVisits recs begin_ endRev n) := by
    refine mem_compactRecs.mpr ⟨hr, fun hc => ?_⟩
    exact absurd ((mem_compactTodo.mp (mem_of_mem_compactVisits hc.1)).2.1 b hb) (not_lt.mpr hle)
  obtain ⟨r₀, hr₀⟩ := exists_newest RevRecord.key hrm hk
  obtain ⟨hr₀m, hr₀k, hr₀max⟩ := (newest_eq_some_iff (hs.filter _)).mp hr₀
  have hr₀recs := (mem_compactRecs.mp hr₀m).1
  have hne : r₀ ≠ t := fun he => hunread r₀ hr₀m hr₀k (he ▸ ht)
  have hlt : r₀.rev < t.rev := lt_of_le_of_ne (htmax r₀ hr₀recs hr₀k)
    (fun he => hne (hs.eq_of_index_eq hr₀recs htm he))
  have hbefore : r₀.rev ≤ b := by
    by_contra hc
    have hcut := (mem_compactTodo.mp (mem_of_mem_compactVisits ht)).2.2
    refine hunread r₀ hr₀m hr₀k (mem_compactVisits_of_le hs ht
      (mem_compactTodo.mpr ⟨hr₀recs, fun b' hb' => ?_, hlt.le.trans hcut⟩) hlt.le)
    rw [Option.mem_unique hb' hb]
    exact not_le.mp hc
  refine ⟨r₀, (liveAt_zero_iff (hs.filter _)).mpr ⟨by rw [hr₀k]; exact hr₀,
    hlive b hb r₀ hr₀recs hbefore⟩, fun hc => ?_⟩
  exact absurd (hc.newest t htm (by simp [pinWindow]) hr₀k.symm) (not_le.mpr hlt)

/-- 手の前の条件は、列の上の条件と同値である。 -/
theorem nothingStranded_iff (h : s.Inv cfg recs) {i v : Nat} {known : Bool} {c : CompactCall}
    (hi : s.compacts[i]? = some (endRev, c)) (hb : c.beginKey = begin_.map (chunkKey · maxInt64)) :
    NothingStranded s (.compactBatch i n v known) ↔
      NoStrandedRecord recs (compactVisits recs begin_ endRev n) begin_ := by
  have hh := h.tracks.holds
  simp only [NothingStranded, hi, Option.mem_def, Option.some.injEq, forall_eq', hb,
    unreadHeaders_eq hh, ← List.map_take, List.forall_mem_map]
  refine forall₂_congr fun t ht => imp_congr_right fun _ => imp_congr ?_ ?_
  · exact getLast_rev_iff hh (mem_compactTodo.mp (mem_of_mem_compactVisits ht)).1
  · constructor
    · intro hall b hbm r hr hk
      have hlt := hh.forall_index.mp (hall (chunkKey b maxInt64) (by rw [hbm]; rfl)) r hr hk
      exact (chunkKey_max_lt_iff (hh.wf r hr).bound (List.mem_cons_self)).mp hlt
    · intro hall b' hb'
      obtain ⟨b, hbm, rfl⟩ := Option.map_eq_some_iff.mp hb'
      exact hh.forall_index.mpr fun r hr hk =>
        (chunkKey_max_lt_iff (hh.wf r hr).bound (List.mem_cons_self)).mpr (hall b hbm r hr hk)

end Batch

/-! ## 不変条件 -/

theorem chunkKey_max_injective {b b' : Versionstamp}
    (h : chunkKey b maxInt64 = chunkKey b' maxInt64) : b = b' :=
  congrArg RevKey.rev h

/-- batch の後の位置は、前の位置のままか、batch が最後に読んだ record である。 -/
theorem CompactBatch.beginKey_cases {begin_ : Option Versionstamp} {endRev : Int} {n : Nat}
    {c c' : CompactCall} {db db' : Db} (h : CompactBatch recs begin_ endRev n c db c' db')
    {b : Versionstamp} (hb : c'.beginKey = some (chunkKey b maxInt64)) :
    c.beginKey = some (chunkKey b maxInt64) ∨
      ∃ z ∈ compactVisits recs begin_ endRev n, z.rev = b := by
  by_cases hn : n < (compactTodo recs begin_ endRev).length
  · rw [(h.running hn).2] at hb
    obtain ⟨b', hl, hbb⟩ := Option.map_eq_some_iff.mp hb
    obtain ⟨z, hz, rfl⟩ := Option.map_eq_some_iff.mp hl
    exact Or.inr ⟨z, List.mem_of_getLast? hz, chunkKey_max_injective hbb⟩
  · exact Or.inl ((h.done (not_lt.mp hn)).2 ▸ hb)

/-- batch が読んだ範囲に残った record は、生きている。 -/
theorem live_of_compactVisits {begin_ : Option Versionstamp} {endRev : Int} {n : Nat}
    {r z : RevRecord} (hs : SortedBy RevRecord.rev recs)
    (hz : z ∈ compactVisits recs begin_ endRev n)
    (hr : r ∈ compactRecs recs (compactVisits recs begin_ endRev n))
    (hafter : ∀ b ∈ begin_, b < r.rev) (hle : r.rev ≤ z.rev) : r.live = true := by
  obtain ⟨hr, hkeep⟩ := mem_compactRecs.mp hr
  have hcut := (mem_compactTodo.mp (mem_of_mem_compactVisits hz)).2.2
  have hvis := mem_compactVisits_of_le hs hz
    (mem_compactTodo.mpr ⟨hr, hafter, hle.trans hcut⟩) hle
  cases hd : r.record.isDelete with
  | false => simp [RevRecord.live, hd]
  | true => exact absurd ⟨hvis, discards_iff.mpr (Or.inr hd)⟩ hkeep

theorem Swept.effect (h : s.Inv cfg recs) (hsw : Swept s recs)
    (he : Store.Effect cfg s recs a s' recs') : Swept s' recs' := by
  cases he with
  | idle _ ha v hv hv63 calls hcalls =>
    rcases hcalls with rfl | ⟨-, endRev, -, rfl⟩
    · exact ⟨hsw.committed, hsw.live⟩
    · -- 始まったばかりの `Compact` は、まだ何も読んでいない
      refine ⟨fun x hx b hb => ?_, fun x hx b hb => ?_⟩
      · rcases List.mem_append.mp hx with hx | hx
        · exact hsw.committed x hx b hb
        · rw [List.mem_singleton.mp hx] at hb
          cases hb
      · rcases List.mem_append.mp hx with hx | hx
        · exact hsw.live x hx b hb
        · rw [List.mem_singleton.mp hx] at hb
          cases hb
  | wrote op lastWriteUUID uuid v record size hc ht hw =>
    refine ⟨fun x hx b hb => ?_, fun x hx b hb r hr hle => ?_⟩
    · obtain ⟨r, hr, hrev⟩ := hsw.committed x hx b hb
      exact ⟨r, List.mem_append_left _ hr, hrev⟩
    · rcases List.mem_append.mp hr with hr | hr
      · exact hsw.live x hx b hb r hr hle
      · -- 新しい record は、読み終えた位置より後ろにある
        obtain ⟨r₀, hr₀, rfl⟩ := hsw.committed x hx b hb
        have hsorted := (append_tracks h.tracks h.bounded hc ht hw uuid).sorted
        rw [List.mem_singleton.mp hr] at hle
        exact absurd ((SortedBy.append_iff.mp hsorted).2.2 r₀ hr₀ _ List.mem_cons_self)
          (not_lt.mpr hle)
  | compacted i n v known endRev c c' db' begin_ hc hi hrun hb hbatch heq =>
    have hcm := List.mem_of_getElem? hi
    refine ⟨fun x hx b hb' => ?_, fun x hx b hb' r hr hle => ?_⟩
    · rcases mem_compacts_cases hx with hx | rfl
      · exact hsw.committed x hx b hb'
      · rcases hbatch.beginKey_cases hb' with hb' | ⟨z, hz, rfl⟩
        · exact hsw.committed _ hcm b hb'
        · exact ⟨z, h.tracks.sub z (mem_compactTodo.mp (mem_of_mem_compactVisits hz)).1, rfl⟩
    · have hrm := (mem_compactRecs.mp hr).1
      rcases mem_compacts_cases hx with hx | rfl
      · exact hsw.live x hx b hb' r hrm hle
      · rcases hbatch.beginKey_cases hb' with hb' | ⟨z, hz, rfl⟩
        · exact hsw.live _ hcm b hb' r hrm hle
        · by_cases hafter : ∀ b ∈ begin_, b < r.rev
          · exact live_of_compactVisits h.tracks.holds.sorted hz hr hafter hle
          · push Not at hafter
            obtain ⟨b₀, hb₀, hle₀⟩ := hafter
            exact hsw.live _ hcm b₀ (by rw [hb, hb₀]; rfl) r hrm hle₀

/-- 最後の書き込みが `Delete` の鍵に、見える record はない。 -/
def DeadKeys (hist recs : List RevRecord) : Prop :=
  ∀ r, newest RevRecord.key hist r.key = some r → r.record.isDelete = true →
    ∀ r', LiveAt 0 recs r' → r'.key ≠ r.key

theorem DeadKeys.concat {hist : List RevRecord} (hdead : DeadKeys hist recs) {new : RevRecord}
    (hs : SortedBy RevRecord.rev (recs ++ [new])) :
    DeadKeys (hist ++ [new]) (recs ++ [new]) := by
  intro r hn hd r' hlive hk
  have hmem := hlive.mem
  rw [newest_concat] at hn
  rcases List.mem_append.mp hmem with hr' | hr'
  · split at hn
    · next hnk =>
      -- 新しい record が同じ鍵なら、古い record は見えない
      have hle := hlive.newest new (by simp) (by simp [pinWindow]) (hnk.trans hk.symm)
      exact absurd ((SortedBy.append_iff.mp hs).2.2 r' hr' new List.mem_cons_self)
        (not_lt.mpr hle)
    · refine hdead r hn hd r' ⟨hr', hlive.window, hlive.live, fun x hx hw hxk => ?_⟩ hk
      exact hlive.newest x (List.mem_append_left _ hx) hw hxk
  · rw [List.mem_singleton.mp hr'] at hk hlive
    rw [if_pos hk] at hn
    have hl := hlive.live
    rw [Option.some.inj hn] at hl
    simp [RevRecord.live, hd] at hl

theorem DeadKeys.deletedStayDead (h : s.Inv cfg recs) (hdead : DeadKeys s.committed recs) :
    s.DeletedStayDead cfg := by
  intro r hn hd keysOnly splits rev kvs hlist kv hkv hk
  obtain ⟨range, hrange⟩ := listRange_self r.key
  obtain ⟨all, hall⟩ := exists_rangeRecs h.tracks.holds r.key r.key
  obtain ⟨kvs', hkvs', hw⟩ := list_within h.tracks h.boundedRecs hrange hall capacityFits_zero 0 keysOnly splits
  have hr := readable_zero h.boundedRecs
  rw [hkvs', hr.pinAnswer_eq] at hlist
  have hkvs : kvs' = kvs := congrArg Prod.snd (Except.ok.inj hlist)
  have hw : kvs' = _ := hw.resolve_left hr.notCompacted
  rw [← hkvs, hw] at hkv
  obtain ⟨r', hr', rfl⟩ := List.mem_map.mp hkv
  refine hdead r hn hd r' (hall.mem_chosenOf.mp hr').1 (Eq.trans ?_ hk)
  cases keysOnly <;> rfl

/-! ## run の現在の状態 -/

/-- run を通して保つもの。 -/
structure CurrentInv (cfg : Config) (s : Store) (recs : List RevRecord) : Prop where
  inv : s.Inv cfg recs
  swept : Swept s recs
  dead : DeadKeys s.committed recs

theorem CurrentInv.init (cfg : Config) : CurrentInv cfg .init [] where
  inv := Store.init_inv cfg
  swept := ⟨fun _ hx => absurd hx List.not_mem_nil, fun _ hx => absurd hx List.not_mem_nil⟩
  dead := fun _ _ _ _ hlive => absurd hlive.mem List.not_mem_nil

/-- 条件を満たす手は、見える record を保つ。 -/
theorem CurrentInv.effect (h : CurrentInv cfg s recs) (he : Store.Effect cfg s recs a s' recs')
    (hok : NothingStranded s a) : CurrentInv cfg s' recs' := by
  have h' := h.inv.effect he
  refine ⟨h', h.swept.effect h.inv he, ?_⟩
  cases he with
  | idle _ ha v hv hv63 calls hcalls => exact h.dead
  | wrote op lastWriteUUID uuid v record size hc ht hw =>
    exact h.dead.concat h'.tracks.holds.sorted
  | compacted i n v known endRev c c' db' begin_ hc hi hrun hb hbatch heq =>
    have hno := (nothingStranded_iff h.inv hi hb).mp hok
    intro r hn hd r' hlive
    exact h.dead r hn hd r' (hlive.of_compact h.inv.tracks.holds.sorted hno)

/-- batch が答えを変えないことは、手の前の条件と同値である。 -/
theorem sameAnswers_batch_iff (h : CurrentInv cfg s recs)
    (he : Store.Effect cfg s recs a s' recs')
    (ha : ∃ i n v known, a = .compactBatch i n v known) :
    SameAnswers cfg 0 s.db s'.db ↔ NothingStranded s a := by
  have h' := h.inv.effect he
  cases he with
  | idle _ hna v hv hv63 calls hcalls =>
    obtain ⟨i, n, v, known, rfl⟩ := ha
    exact absurd rfl (hna i n v known)
  | wrote op lastWriteUUID uuid v record size hc ht hw =>
    obtain ⟨i, n, v, known, ha⟩ := ha
    cases ha
  | compacted i n v known endRev c c' db' begin_ hc hi hrun hb hbatch heq =>
    have hs := h.inv.tracks.holds.sorted
    have hr' := readable_zero h'.boundedRecs
    rw [sameAnswers_iff h.inv.tracks h'.tracks h.inv.boundedRecs h'.boundedRecs
      (readable_zero h.inv.boundedRecs) hr'.notFuture, nothingStranded_iff h.inv hi hb]
    constructor
    · rintro ⟨-, hlive⟩
      by_contra hno
      have hswept : ∀ b ∈ begin_, ∀ r ∈ recs, r.rev ≤ b → r.live = true := fun b hbm =>
        h.swept.live (endRev, c) (List.mem_of_getElem? hi) b (by rw [hb, hbm]; rfl)
      obtain ⟨r, hl, hnl⟩ := exists_liveAt_of_stranded hs hswept hno
      exact hnl ((hlive r).mpr hl)
    · intro hno
      exact ⟨hr'.notCompacted, fun r => ⟨fun hl => hl.compact _, fun hl => hl.of_compact hs hno⟩⟩

/-- run のどの batch も現在の状態を変えず、消された鍵がまた見えることもないのは、どの batch も
取り残された record を持つ鍵の tombstone を読まないときであり、そのときに限る。 -/
theorem current_kept_iff (cfg : Config) {as : List StoreLabel} {s : Store}
    (hr : runSteps (Store.step cfg) .init as = some s) :
    StepsMeet (Store.step cfg) (CurrentKept cfg) .init as ↔
      StepsMeet (Store.step cfg) NothingStranded .init as := by
  refine (stepsMeet_congr (P := fun s => ∃ recs, CurrentInv cfg s recs)
    ?_ ?_ ⟨[], CurrentInv.init cfg⟩ hr).symm
  · rintro s a s' ⟨recs, h⟩ hok hs
    obtain ⟨recs', he, -⟩ := Store.inv_step h.inv hs
    exact ⟨recs', h.effect he hok⟩
  · rintro s a s' ⟨recs, h⟩ hs
    obtain ⟨recs', he, h'⟩ := Store.inv_step h.inv hs
    constructor
    · intro hok s₁ hs₁
      obtain rfl : s' = s₁ := Option.some.inj (hs.symm.trans hs₁)
      exact ⟨fun ha => (sameAnswers_batch_iff h he ha).mpr hok,
        (h.effect he hok).dead.deletedStayDead h'⟩
    · intro hkept
      by_cases ha : ∃ i n v known, a = .compactBatch i n v known
      · exact (sameAnswers_batch_iff h he ha).mp ((hkept s' hs).1 ha)
      · cases a with
        | compactBatch i n v known => exact absurd ⟨i, n, v, known, rfl⟩ ha
        | _ => trivial

/-- `Delete` を挟まずに batch が進む run。 -/
theorem current_kept_of_quiet :
    StepsMeet (Store.step .default) (CurrentKept .default) .init
      [.write (.create [97] [1] 0) 0 1 2, .write (.delete [97] 0) 0 2 3,
        .write (.create [98] [2] 0) 0 3 4, .startCompact 9, .compactBatch 0 0 5 true,
        .write (.delete [98] 0) 0 4 6, .compactBatch 0 5 7 true] := by
  obtain ⟨s, hs⟩ : ∃ s, runSteps (Store.step .default) .init
      [.write (.create [97] [1] 0) 0 1 2, .write (.delete [97] 0) 0 2 3,
        .write (.create [98] [2] 0) 0 3 4, .startCompact 9, .compactBatch 0 0 5 true,
        .write (.delete [98] 0) 0 4 6, .compactBatch 0 5 7 true] = some s :=
    Option.isSome_iff_exists.mp (by decide +kernel)
  exact (current_kept_iff .default hs).mpr (by decide +kernel)

/-- 一つ目の batch が鍵を読んで残した後で `Delete` が commit し、二つ目の batch がその tombstone を
消すと、消された鍵がまた見える。 -/
theorem deleted_key_resurrected :
    ∃ s s', runSteps (Store.step .default) .init
        [.write (.create [97] [1] 0) 0 1 2, .startCompact 4, .compactBatch 0 0 3 true,
          .write (.delete [97] 0) 0 2 4] = some s ∧
      s.step .default (.compactBatch 0 5 5 true) = some s' ∧
      get .default [97] [] 0 false (fun _ => 5) s.db = .ok (4, none) ∧
      get .default [97] [] 0 false (fun _ => 5) s'.db = .ok (5, some ⟨[97], 2, 2, 0, [1]⟩) := by
  have h : (runSteps (Store.step .default) .init
      [.write (.create [97] [1] 0) 0 1 2, .startCompact 4, .compactBatch 0 0 3 true,
        .write (.delete [97] 0) 0 2 4]).any (fun s =>
      (s.step .default (.compactBatch 0 5 5 true)).any (fun s' =>
        decide (get .default [97] [] 0 false (fun _ => 5) s.db = .ok (4, none) ∧
          get .default [97] [] 0 false (fun _ => 5) s'.db
            = .ok (5, some ⟨[97], 2, 2, 0, [1]⟩)))) = true := by
    decide +kernel
  obtain ⟨s, hs, h⟩ := (Option.any_eq_true _ _).mp h
  obtain ⟨s', hs', h⟩ := exists_of_any_decide h
  exact ⟨s, s', hs, hs', h⟩

end KubeFdb

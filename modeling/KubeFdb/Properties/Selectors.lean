import KubeFdb.Properties.CompactBatch
import KubeFdb.Driver.Watch

/-!
# revision の selector

log の範囲は、長さの違う三つの鍵 `(rev)`、`(rev, offset)`、`(rev, MaxInt64)` の byte 列で区切る。
byte 列の順序は tuple の順序に等しく（`packRevKey_lt_iff`）、revision の番号の順序に等しい。
したがって、どの端点も record と record の間に落ちる（`revision_selectors_cut`）。

* `afterRevisionSelector` の始めと、続きを読む selector は `(rev, MaxInt64)` の次である。record の chunk は
  すべてその前にある。
* `Compact` の終わりは `(rev)` の次である。header は入り、その chunk は入らない。
-/

namespace KubeFdb

open Tuple

def RevKey.offset (k : RevKey) : WithBot ℕ := (ofLex k).2

/-- offset の符号。header は offset を持たない。 -/
def packOffset (o : WithBot ℕ) : Bytes := WithBot.recBotCoe [] packInt o

/-- 鍵の byte 列。subspace の prefix はどの鍵でも同じなので省く。 -/
def packRevKey (k : RevKey) : Bytes := packVersionstamp k.rev.toNat ++ packOffset k.offset

/-- record の鍵。header か、offset が int64 に収まる chunk である。 -/
structure IsLogKey (k : RevKey) : Prop where
  rev : IsRev k.rev
  offset : k.offset ≤ (maxInt64 : WithBot ℕ)

/-- 保存された record の鍵は、どれも selector の扱える鍵である。 -/
theorem isLogKey_of_mem_logEntries {r : RevRecord} (hw : r.Wf) {e : RevKey × RevValue}
    (he : e ∈ logEntries r) : IsLogKey e.1 := by
  refine ⟨by rw [logEntries_rev he]; exact hw.rev, ?_⟩
  rcases List.mem_cons.mp he with rfl | he
  · exact bot_le
  · obtain ⟨c, hc, rfl⟩ := List.mem_map.mp he
    have hle : c.1 ≤ maxInt64 := by
      have hlt := offset_lt hc
      have hbound := hw.bound
      unfold maxRecordSize at hbound
      unfold maxInt64
      omega
    exact WithBot.coe_le_coe.mpr hle

/-! ## byte 列の順序 -/

theorem toNat_lt_of_lt {v : Versionstamp} (h : v.txVersion < 2 ^ 64) : v.toNat < 256 ^ 12 := by
  have h1 := v.idInCommit.isLt
  have h2 := v.userVersion.isLt
  unfold Versionstamp.toNat
  omega

theorem IsRev.toNat_lt {rev : Versionstamp} (h : IsRev rev) : rev.toNat < 256 ^ 12 := by
  obtain ⟨n, -, hn, rfl⟩ := h
  exact toNat_lt_of_lt (by show n < 2 ^ 64; omega)

theorem toNat_int64ToVersionstamp_lt (m : Int) : (int64ToVersionstamp m).toNat < 256 ^ 12 := by
  refine toNat_lt_of_lt ?_
  show (m % 2 ^ 64).toNat < 2 ^ 64
  omega

theorem packOffset_lt_iff {a b : WithBot ℕ} (ha : a ≤ (maxInt64 : WithBot ℕ))
    (hb : b ≤ (maxInt64 : WithBot ℕ)) :
    packOffset a < packOffset b ↔ a < b := by
  have hmax : maxInt64 < 256 ^ 8 := by decide
  cases a with
  | bot =>
    cases b with
    | bot => exact ⟨fun h => absurd h (lt_irrefl _), fun h => absurd h (lt_irrefl _)⟩
    | coe o => exact ⟨fun _ => WithBot.bot_lt_coe o, fun _ => List.nil_lt_cons _ _⟩
  | coe n =>
    cases b with
    | bot => exact ⟨fun h => absurd h (List.not_lt_nil _), fun h => absurd h not_lt_bot⟩
    | coe o =>
      have hn := (WithBot.coe_le_coe.mp ha).trans_lt hmax
      have ho := (WithBot.coe_le_coe.mp hb).trans_lt hmax
      exact (packInt_lt_iff hn ho).trans WithBot.coe_lt_coe.symm

/-- byte 列の順序は tuple の順序である。 -/
theorem packRevKey_lt_iff {a b : RevKey} (ha : a.rev.toNat < 256 ^ 12) (hb : b.rev.toNat < 256 ^ 12)
    (hao : a.offset ≤ (maxInt64 : WithBot ℕ)) (hbo : b.offset ≤ (maxInt64 : WithBot ℕ)) :
    packRevKey a < packRevKey b ↔ a < b := by
  unfold packRevKey
  rw [packVersionstamp_append_lt_iff ha hb, packOffset_lt_iff hao hbo, Prod.Lex.lt_iff,
    Versionstamp.toNat_injective.eq_iff]
  rfl

/-! ## selector の範囲 -/

/-- `afterRevisionSelector` の範囲。始めは `(minRevision, MaxInt64)` の次、終わりは subspace の終わりである。 -/
def InAfterSelector (minRevision : Int) (k : RevKey) : Prop :=
  packRevKey (chunkKey (int64ToVersionstamp minRevision) maxInt64) < packRevKey k ∧
    packRevKey k < [0xFF]

/-- `Compact` の範囲。始めは subspace の始め、終わりは `(endRev)` の次である。 -/
def InCompactSelector (endRev : Int) (k : RevKey) : Prop :=
  [0] ≤ packRevKey k ∧ packRevKey k ≤ packRevKey (headerKey (int64ToVersionstamp endRev))

/-- record を読み終えた batch の次に読む範囲。`FirstGreaterThan` の鍵は `(rev, MaxInt64)` である。 -/
def InResumedSelector (rev : Versionstamp) (k : RevKey) : Prop :=
  packRevKey (chunkKey rev maxInt64) < packRevKey k

instance (m : Int) (k : RevKey) : Decidable (InAfterSelector m k) :=
  inferInstanceAs (Decidable (_ ∧ _))

instance (m : Int) (k : RevKey) : Decidable (InCompactSelector m k) :=
  inferInstanceAs (Decidable (_ ∧ _))

instance (rev : Versionstamp) (k : RevKey) : Decidable (InResumedSelector rev k) :=
  inferInstanceAs (Decidable (_ < _))

/-- `(b, MaxInt64)` の後ろにあるのは、revision のより大きい鍵である。 -/
theorem chunkKey_max_lt_iff_rev {k : RevKey} (hk : IsLogKey k) (b : Versionstamp) :
    chunkKey b maxInt64 < k ↔ b < k.rev := by
  refine ⟨fun h => ?_, fun h => Prod.Lex.lt_iff.mpr (Or.inl h)⟩
  rcases Prod.Lex.lt_iff.mp h with hlt | ⟨-, hlt⟩
  · exact hlt
  · exact absurd hlt (not_lt.mpr hk.offset)

theorem packRevKey_chunkKey_max_lt_iff {k : RevKey} (hk : IsLogKey k) {b : Versionstamp}
    (hb : b.toNat < 256 ^ 12) :
    packRevKey (chunkKey b maxInt64) < packRevKey k ↔ chunkKey b maxInt64 < k :=
  packRevKey_lt_iff hb hk.rev.toNat_lt le_rfl hk.offset

theorem packRevKey_lt_end (k : RevKey) : packRevKey k < [0xFF] :=
  List.cons_lt_cons_iff.mpr (Or.inl (show (0x33 : Byte) < 0xFF by decide))

theorem begin_le_packRevKey (k : RevKey) : [0] ≤ packRevKey k :=
  (List.cons_lt_cons_iff.mpr (Or.inl (show (0 : Byte) < 0x33 by decide))).le

/-- selector の byte 列の範囲は、model の tuple の範囲である。 -/
theorem inAfterSelector_iff_lt {k : RevKey} (hk : IsLogKey k) (m : Int) :
    InAfterSelector m k ↔ chunkKey (int64ToVersionstamp m) maxInt64 < k := by
  unfold InAfterSelector
  rw [packRevKey_chunkKey_max_lt_iff hk (toNat_int64ToVersionstamp_lt m)]
  exact and_iff_left (packRevKey_lt_end k)

theorem inCompactSelector_iff_le {k : RevKey} (hk : IsLogKey k) (m : Int) :
    InCompactSelector m k ↔ k ≤ headerKey (int64ToVersionstamp m) := by
  have hlt : packRevKey (headerKey (int64ToVersionstamp m)) < packRevKey k ↔
      headerKey (int64ToVersionstamp m) < k :=
    packRevKey_lt_iff (a := headerKey _) (toNat_int64ToVersionstamp_lt m) hk.rev.toNat_lt bot_le hk.offset
  unfold InCompactSelector
  rw [and_iff_right (begin_le_packRevKey k), ← not_lt, hlt, not_lt]

theorem headerKey_le_iff {rev cut : Versionstamp} : headerKey rev ≤ headerKey cut ↔ rev ≤ cut := by
  rw [← not_lt, ← not_lt]
  refine not_congr ⟨fun h => ?_, fun h => Prod.Lex.lt_iff.mpr (Or.inl h)⟩
  rcases Prod.Lex.lt_iff.mp h with hlt | ⟨-, hlt⟩
  · exact hlt
  · exact absurd hlt (lt_irrefl _)

/-! ## record の切れ目 -/

theorem int64ToVersionstamp_versionstampToInt64 {rev : Versionstamp} (h : IsRev rev) :
    int64ToVersionstamp (versionstampToInt64 rev) = rev := by
  obtain ⟨n, -, hn, rfl⟩ := h
  rw [versionstampToInt64_commitStamp hn, int64ToVersionstamp_of_nonneg (by omega) (by omega)]
  rfl

theorem versionstampToInt64_int64ToVersionstamp {m : Int} (h0 : 0 ≤ m) (hm : m < 2 ^ 63) :
    versionstampToInt64 (int64ToVersionstamp m) = m := by
  rw [int64ToVersionstamp_of_nonneg h0 hm, versionstampToInt64_commitStamp (by omega)]
  omega

/-- 番号の順序は、versionstamp の byte 列の順序である。 -/
theorem IsRev.pack_lt_iff {a b : Versionstamp} (ha : IsRev a) (hb : IsRev b) :
    packVersionstamp a.toNat < packVersionstamp b.toNat ↔
      versionstampToInt64 a < versionstampToInt64 b := by
  rw [packVersionstamp_lt_iff ha.toNat_lt hb.toNat_lt, ← Versionstamp.lt_iff, ha.lt_iff hb]

/-- log の範囲を番号で述べたもの。 -/
structure SelectorsCut (m : Int) (db : Db) : Prop where
  /-- `afterRevisionSelector` は、番号が `m` より大きい record の header と chunk を選ぶ。 -/
  after : afterRange m db none
    = db.byRevision.entries.filter (fun e => decide (InAfterSelector m e.1))
  inAfter : ∀ e ∈ db.byRevision.entries, (InAfterSelector m e.1 ↔ m < versionstampToInt64 e.1.rev)
  /-- 続きの読み出しは、番号が読み終えた番号以下の record の鍵を飛ばす。 -/
  resumed : ∀ rev, IsRev rev → entriesAfter (some (chunkKey rev maxInt64)) db.byRevision.entries
    = db.byRevision.entries.filter (fun e => decide (InResumedSelector rev e.1))
  inResumed : ∀ rev, IsRev rev → ∀ e ∈ db.byRevision.entries,
    (¬ InResumedSelector rev e.1 ↔ versionstampToInt64 e.1.rev ≤ versionstampToInt64 rev)
  /-- `Compact` は、番号が `m` 以下の header を選ぶ。 -/
  compact : compactRange m db none
    = db.byRevision.entries.filter (fun e => decide (InCompactSelector m e.1))
  inCompact : ∀ rev v, (headerKey rev, v) ∈ db.byRevision.entries →
    (InCompactSelector m (headerKey rev) ↔ versionstampToInt64 rev ≤ m)
  /-- 番号と versionstamp の変換は逆で、byte 列の順序を保つ。 -/
  roundTrip : versionstampToInt64 (int64ToVersionstamp m) = m
  roundTripRev : ∀ rev, IsRev rev → int64ToVersionstamp (versionstampToInt64 rev) = rev
  monotone : ∀ a b, IsRev a → IsRev b → (packVersionstamp a.toNat < packVersionstamp b.toNat ↔
    versionstampToInt64 a < versionstampToInt64 b)

/-- どの selector も record と record の間で切れる。 -/
theorem revision_selectors_cut (m : Int) (h0 : 0 ≤ m) (hm : m < 2 ^ 63) (db : Db)
    (hdb : ∀ e ∈ db.byRevision.entries, IsLogKey e.1) : SelectorsCut m db where
  after := List.filter_congr fun e he => decide_eq_decide.mpr (inAfterSelector_iff_lt (hdb e he) m).symm
  inAfter e he := by
    rw [inAfterSelector_iff_lt (hdb e he), chunkKey_max_lt_iff_rev (hdb e he)]
    exact (hdb e he).rev.int64_lt_iff h0 hm
  resumed rev hrev := List.filter_congr fun e he =>
    decide_eq_decide.mpr (packRevKey_chunkKey_max_lt_iff (hdb e he) hrev.toNat_lt).symm
  inResumed rev hrev e he := by
    unfold InResumedSelector
    rw [packRevKey_chunkKey_max_lt_iff (hdb e he) hrev.toNat_lt, chunkKey_max_lt_iff_rev (hdb e he),
      not_lt]
    exact (hdb e he).rev.le_iff hrev
  compact := List.filter_congr fun e he => decide_eq_decide.mpr (inCompactSelector_iff_le (hdb e he) m).symm
  inCompact rev v he := by
    rw [inCompactSelector_iff_le (hdb _ he), headerKey_le_iff]
    exact (hdb _ he).rev.le_int64_iff h0 hm
  roundTrip := versionstampToInt64_int64ToVersionstamp h0 hm
  roundTripRev _ := int64ToVersionstamp_versionstampToInt64
  monotone _ _ := IsRev.pack_lt_iff

/-- header と chunk を一つずつ持つ log。 -/
def oneRecordDb : Db :=
  { Db.empty with
    byRevision := ByRevision.write .empty (commitStamp 5)
      ⟨[0x61], false, true, 0, dummyVersionstamp, dummyVersionstamp, 1, 0, [7], false⟩ }

theorem revision_selectors_cut_oneRecord :
    oneRecordDb.byRevision.entries.length = 2 ∧ SelectorsCut 4 oneRecordDb := by
  refine ⟨by decide, revision_selectors_cut 4 (by decide) (by decide) oneRecordDb fun e he => ?_⟩
  rcases (ByRevision.mem_write fun e' he' => by simp at he').mp he with h | h
  · exact isLogKey_of_mem_logEntries ⟨⟨5, by decide, by decide, rfl⟩, rfl, by decide, rfl⟩ h
  · simp at h

end KubeFdb

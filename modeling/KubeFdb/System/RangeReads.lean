import KubeFdb.System.ReadHistory

/-!
# 範囲の読み出し

`List`、`Get`、`Count` が範囲から何を返すか。

* `get_returns_key_iff` — `Get` が求めた鍵そのものを返す条件。`/` で終わる鍵は prefix として走査される
* `list_after_startKey_iff` — `startKey` からの走査が、prefix を持つ後の鍵をちょうど読む条件
* `list_limit_iff` — 上限のある `List` が、上限のない答えの先頭を返す条件。上限に達したときに読んだ record も
  渡されることがある
-/

namespace KubeFdb

open Tuple

variable {cfg : Config} {R : Int} {db : Db} {recs hist all : List RevRecord} {key : Key}
  {prefix_ startKey : Key}

/-- `List` と `Get` が record について返すもの。鍵だけを求めたときは、値がない。 -/
def RevRecord.shown (keysOnly : Bool) (r : RevRecord) : KeyValue :=
  if keysOnly then { r.keyValue with value := [] } else r.keyValue

theorem RevRecord.shown_key (keysOnly : Bool) (r : RevRecord) : (r.shown keysOnly).key = r.key := by
  unfold RevRecord.shown
  split <;> rfl

/-- 返る値が同じなら、鍵も同じである。 -/
theorem map_key_of_map_shown {keysOnly : Bool} {l l' : List RevRecord}
    (h : l.map (RevRecord.shown keysOnly) = l'.map (RevRecord.shown keysOnly)) :
    l.map RevRecord.key = l'.map RevRecord.key := by
  have hmap := congrArg (List.map KeyValue.key) h
  rw [List.map_map, List.map_map] at hmap
  simpa only [Function.comp_def, RevRecord.shown_key] using hmap

theorem LiveAt.shown_eq (cfg : Config) (keysOnly : Bool) {r : RevRecord} (h : LiveAt R recs r) :
    kvOf cfg (r.listed keysOnly) = r.shown keysOnly :=
  kvOf_listed_of_live cfg keysOnly (by simpa [RevRecord.live] using h.live)

/-! ## Get -/

/-- `Get` が、求めた鍵が生きていればその最新の record を、そうでなければ何も返さないこと。 -/
def GetsKey (cfg : Config) (key : Key) (R : Int) (keysOnly : Bool) (splits : Nat → Nat) (db : Db) :
    Prop :=
  ∃ recs o, db.Holds recs ∧
    get cfg key [] R keysOnly splits db = .ok (db.getLatestRev cfg, o) ∧
    ∀ kv, o = some kv ↔ ∃ r, LiveAt R recs r ∧ r.key = key ∧ kv = r.shown keysOnly

/-- 鍵が `/` で終わるなら、鍵が生きているか、鍵で始まる生きた鍵がないこと。 -/
def AloneIfSlash (key : Key) (R : Int) (db : Db) : Prop :=
  hasSlashSuffix key = true → key ∈ db.keysAt R ∨ ∀ k ∈ db.keysAt R, ¬ key <+: k

instance (key : Key) (R : Int) (db : Db) : Decidable (AloneIfSlash key R db) :=
  inferInstanceAs (Decidable (_ → _ ∨ ∀ k ∈ db.keysAt R, ¬ key <+: k))

/-- 範囲の先頭の record が求めた鍵のものであること。 -/
theorem aloneIfSlash_iff_head (h : db.Holds recs) (hall : RangeRecs recs key key all) :
    AloneIfSlash key R db ↔ ∀ r ∈ (chosenOf (pinWindow R) all).head?, r.key = key := by
  have hsorted : SortedBy RevRecord.key (chosenOf (pinWindow R) all) :=
    GroupScan.chosen_sorted hall.ordered
  have hmem : ∀ {r}, r ∈ chosenOf (pinWindow R) all ↔
      LiveAt R recs r ∧ doesEventHavePrefix r.key key = true := by
    intro r
    rw [hall.mem_chosenOf, inListRange_self_eq]
  constructor
  · intro halone r hr
    have hrm := List.mem_of_mem_head? hr
    obtain ⟨hlive, hpre⟩ := hmem.mp hrm
    rcases Bool.or_eq_true_iff.mp hpre with hpre | hpre
    · obtain ⟨hs, hp⟩ := Bool.and_eq_true_iff.mp hpre
      have hp := List.isPrefixOf_iff_prefix.mp hp
      rcases halone hs with hkey | hnone
      · -- 鍵そのものは、鍵で始まるどの鍵よりも前にある
        obtain ⟨r₀, hlive₀, hk₀⟩ := (mem_keysAt h).mp hkey
        have hr₀ : r₀ ∈ chosenOf (pinWindow R) all := hmem.mpr ⟨hlive₀, by simp [hk₀, doesEventHavePrefix]⟩
        have hle : r.key ≤ r₀.key := by
          obtain ⟨rest, hl⟩ := List.head?_eq_some_iff.mp hr
          rw [hl] at hr₀ hsorted
          rcases List.mem_cons.mp hr₀ with rfl | hr₀
          · exact le_rfl
          · exact (hsorted.lt_of_mem hr₀).le
        exact le_antisymm (hk₀ ▸ hle) (not_lt.mp hp.le)
      · exact absurd hp (hnone r.key ((mem_keysAt h).mpr ⟨r, hlive, rfl⟩))
    · exact of_decide_eq_true hpre
  · intro hhead hs
    cases hl : (chosenOf (pinWindow R) all).head? with
    | none =>
      refine Or.inr fun k hk hp => ?_
      obtain ⟨r, hlive, rfl⟩ := (mem_keysAt h).mp hk
      have hr : r ∈ chosenOf (pinWindow R) all := hmem.mpr ⟨hlive, Bool.or_eq_true_iff.mpr
        (Or.inl (Bool.and_eq_true_iff.mpr ⟨hs, List.isPrefixOf_iff_prefix.mpr hp⟩))⟩
      rw [List.head?_eq_none_iff.mp hl] at hr
      exact absurd hr List.not_mem_nil
    | some r =>
      have hr := List.mem_of_mem_head? (show r ∈ _ from hl)
      exact Or.inl ((mem_keysAt h).mpr ⟨r, (hmem.mp hr).1, hhead r hl⟩)

/-- 到達できる store で、読める revision `R` の `Get` が求めた鍵そのものを返すのは、鍵が `/` で終わらないか、
鍵が生きているか、鍵で始まる生きた鍵がないときであり、そのときに限る。 -/
theorem get_returns_key_iff (cfg : Config) {s : Store} (hs : s.Reachable cfg) {R : Int}
    (hR : Readable cfg R s.db) (key : Key) (keysOnly : Bool) (splits : Nat → Nat) :
    GetsKey cfg key R keysOnly splits s.db ↔ AloneIfSlash key R s.db := by
  obtain ⟨recs, hi⟩ := hs.inv
  have h := hi.tracks.holds
  obtain ⟨range, hrange⟩ := listRange_self key
  obtain ⟨all, hall⟩ := exists_rangeRecs h key key
  have hget := get_eq_head hi.tracks hi.boundedRecs hrange hall R keysOnly splits
  rw [hR.pinAnswer_eq, List.head?_map] at hget
  have hsorted : SortedBy RevRecord.key (chosenOf (pinWindow R) all) :=
    GroupScan.chosen_sorted hall.ordered
  rw [aloneIfSlash_iff_head h hall]
  constructor
  · rintro ⟨recs', o, -, hget', hkv⟩ r hr
    obtain rfl : o = _ := congrArg Prod.snd (Except.ok.inj (hget'.symm.trans hget))
    have hlive := (hall.mem_chosenOf.mp (List.mem_of_mem_head? hr)).1
    obtain ⟨r', -, hk, hshown⟩ := (hkv (r.shown keysOnly)).mp (by
      rw [hr, Option.map_some, hlive.shown_eq])
    rw [← r.shown_key keysOnly, hshown, r'.shown_key, hk]
  · intro hhead
    refine ⟨recs, _, h, hget, fun kv => ⟨fun hkv => ?_, ?_⟩⟩
    · obtain ⟨r, hr, rfl⟩ := Option.map_eq_some_iff.mp hkv
      have hlive := (hall.mem_chosenOf.mp (List.mem_of_mem_head? hr)).1
      exact ⟨r, hlive, hhead r hr, hlive.shown_eq cfg keysOnly⟩
    · rintro ⟨r, hlive, rfl, rfl⟩
      have hr : r ∈ chosenOf (pinWindow R) all :=
        hall.mem_chosenOf.mpr ⟨hlive, inListRange_self r.key⟩
      cases hl : (chosenOf (pinWindow R) all).head? with
      | none =>
        rw [List.head?_eq_none_iff.mp hl] at hr
        exact absurd hr List.not_mem_nil
      | some x =>
        have hx := List.mem_of_mem_head? (show x ∈ _ from hl)
        obtain rfl : x = r := hsorted.eq_of_index_eq hx hr (hhead x hl)
        rw [Option.map_some, hlive.shown_eq]

/-- 二つの revision を持つ `/a` の、古い方を読む。 -/
theorem get_returns_key_of_pinned :
    ∃ s, runSteps (Store.step .default) .init
        [.write (.create [47, 97] [1] 0) 0 1 2, .write (.update [47, 97] [2] 2 0) 0 2 3,
          .write (.create [47, 97, 98] [3] 0) 0 3 4] = some s ∧
      GetsKey .default [47, 97] 2 false (fun _ => 0) s.db := by
  have h : (runSteps (Store.step .default) .init
      [.write (.create [47, 97] [1] 0) 0 1 2, .write (.update [47, 97] [2] 2 0) 0 2 3,
        .write (.create [47, 97, 98] [3] 0) 0 3 4]).any (fun s =>
      decide (¬ PinCompacted 2 s.db ∧ 2 ≤ s.db.getLatestRev .default ∧
        AloneIfSlash [47, 97] 2 s.db)) = true := by
    decide +kernel
  obtain ⟨s, hs, hnc, hle, halone⟩ := exists_of_any_decide h
  exact ⟨s, hs, (get_returns_key_iff .default ⟨_, hs⟩ ⟨hnc, hle⟩ [47, 97] false _).mpr halone⟩

/-- 鍵 `/a/` のない store で `Get("/a/")` を呼ぶと、`/a/b` の record が返る。 -/
theorem get_returns_other_key :
    ∃ s, runSteps (Store.step .default) .init [.write (.create [47, 97, 47, 98] [1] 0) 0 1 2]
        = some s ∧
      Readable .default 0 s.db ∧
      get .default [47, 97, 47] [] 0 false (fun _ => 5) s.db
        = .ok (2, some ⟨[47, 97, 47, 98], 2, 2, 0, [1]⟩) ∧
      ¬ GetsKey .default [47, 97, 47] 0 false (fun _ => 5) s.db := by
  have h : (runSteps (Store.step .default) .init
      [.write (.create [47, 97, 47, 98] [1] 0) 0 1 2]).any (fun s =>
      decide (¬ PinCompacted 0 s.db ∧ 0 ≤ s.db.getLatestRev .default ∧
        get .default [47, 97, 47] [] 0 false (fun _ => 5) s.db
          = .ok (2, some ⟨[47, 97, 47, 98], 2, 2, 0, [1]⟩))) = true := by
    decide +kernel
  obtain ⟨s, hs, hnc, hle, hget⟩ := exists_of_any_decide h
  refine ⟨s, hs, ⟨hnc, hle⟩, hget, ?_⟩
  rintro ⟨recs, o, -, hget', hkv⟩
  obtain rfl : o = some ⟨[47, 97, 47, 98], 2, 2, 0, [1]⟩ :=
    (Prod.mk.inj (Except.ok.inj (hget'.symm.trans hget))).2
  obtain ⟨r, -, hk, hshown⟩ := (hkv _).mp rfl
  have hkey := congrArg KeyValue.key hshown
  rw [r.shown_key, hk] at hkey
  exact absurd hkey (by decide)

/-! ## startKey からの走査 -/

/-- 上限なしの `List` と `Count` が、prefix を持ち `startKey` より大きい生きた鍵をちょうど読むこと。 -/
def ReadsAfterStartKey (cfg : Config) (prefix_ startKey : Key) (R : Int) (keysOnly : Bool)
    (splits splits' : Nat → Nat) (db : Db) : Prop :=
  ∃ recs live, db.Holds recs ∧ SortedBy RevRecord.key live ∧
    (∀ r, r ∈ live ↔ LiveAt R recs r ∧ prefix_ <+: r.key ∧ startKey < r.key) ∧
    list cfg prefix_ startKey 0 R keysOnly splits db
      = .ok (db.getLatestRev cfg, live.map (RevRecord.shown keysOnly)) ∧
    countScan cfg prefix_ startKey R splits' db = .ok (db.getLatestRev cfg, live.length)

/-- 生きた鍵のどれも、`startKey` と prefix の間になく、prefix を持って `startKey` に NUL を足して始まることも
ないこと。`startKey` に NUL を足して始まる鍵は、間にあっても読まれない。 -/
def StartKeyFits (prefix_ startKey : Key) (R : Int) (db : Db) : Prop :=
  ∀ k ∈ db.keysAt R, ¬ (startKey < k ∧ k < prefix_ ∧ ¬ startKey ++ [0] <+: k) ∧
    ¬ (prefix_ <+: k ∧ startKey ++ [0] <+: k)

instance (prefix_ startKey : Key) (R : Int) (db : Db) :
    Decidable (StartKeyFits prefix_ startKey R db) :=
  inferInstanceAs (Decidable (∀ k ∈ db.keysAt R, ¬ (_ ∧ _ ∧ _) ∧ ¬ (_ ∧ _)))

theorem inListRange_iff_of_ne (hs : hasSlashSuffix prefix_ = true) (hne : startKey ≠ prefix_) :
    inListRange prefix_ startKey key = true ↔
      (startKey < key ∧ ¬ startKey ++ [0] <+: key) ∧ (key < prefix_ ∨ prefix_ <+: key) := by
  unfold inListRange
  rw [if_pos hs, if_pos hne.symm]
  simp only [Bool.and_eq_true, Bool.or_eq_true, decide_eq_true_eq, Bool.not_eq_true',
    ← Bool.not_eq_true, List.isPrefixOf_iff_prefix]

/-- 範囲に入るかどうかが、prefix を持ち `startKey` より大きいかどうかと同じになる条件。 -/
theorem inListRange_exact_iff (hs : hasSlashSuffix prefix_ = true) (hne : startKey ≠ prefix_) :
    (inListRange prefix_ startKey key = true ↔ prefix_ <+: key ∧ startKey < key) ↔
      ¬ (startKey < key ∧ key < prefix_ ∧ ¬ startKey ++ [0] <+: key) ∧
        ¬ (prefix_ <+: key ∧ startKey ++ [0] <+: key) := by
  have hpre : prefix_ <+: key → ¬ key < prefix_ := fun hp => hp.le
  have hnul : startKey ++ [0] <+: key → startKey < key := by
    intro hp
    have hle := not_lt.mp ((List.prefix_append startKey [0]).trans hp).le
    refine lt_of_le_of_ne hle fun heq => ?_
    have hlen := hp.length_le
    rw [← heq, List.length_append, List.length_singleton] at hlen
    omega
  rw [inListRange_iff_of_ne hs hne]
  constructor
  · intro hiff
    refine ⟨fun ⟨hlt, hbefore, hno⟩ => ?_, fun ⟨hp, hn⟩ => ?_⟩
    · exact hpre (hiff.mp ⟨⟨hlt, hno⟩, Or.inl hbefore⟩).1 hbefore
    · exact (hiff.mpr ⟨hp, hnul hn⟩).1.2 hn
  · rintro ⟨hbefore, hextended⟩
    constructor
    · rintro ⟨⟨hlt, hno⟩, hb | hp⟩
      · exact absurd ⟨hlt, hb, hno⟩ hbefore
      · exact ⟨hp, hlt⟩
    · rintro ⟨hp, hlt⟩
      exact ⟨⟨hlt, fun hn => hextended ⟨hp, hn⟩⟩, Or.inr hp⟩

/-- 到達できる store で、`/` で終わる prefix と、それと異なる `startKey` からの上限なしの `List` と `Count` が、
prefix を持ち `startKey` より大きい生きた鍵をちょうど読むのは、`StartKeyFits` のときであり、そのときに限る。 -/
theorem list_after_startKey_iff (cfg : Config) {s : Store} (hs : s.Reachable cfg) {R : Int}
    (hR : Readable cfg R s.db) {prefix_ startKey : Key} (hslash : hasSlashSuffix prefix_ = true)
    (hne : startKey ≠ prefix_) (keysOnly : Bool) (splits splits' : Nat → Nat) :
    ReadsAfterStartKey cfg prefix_ startKey R keysOnly splits splits' s.db ↔
      StartKeyFits prefix_ startKey R s.db := by
  obtain ⟨recs, hi⟩ := hs.inv
  have h := hi.tracks.holds
  obtain ⟨range, hrange⟩ : ∃ range, listRange prefix_ startKey = .ok range := by
    unfold listRange
    rw [if_pos hslash]
    exact ⟨_, rfl⟩
  obtain ⟨all, hall⟩ := exists_rangeRecs h prefix_ startKey
  obtain ⟨kvs, hkvs, hw⟩ := list_within hi.tracks hi.boundedRecs hrange hall capacityFits_zero R
    keysOnly splits
  have hcount := countScan_eq hi.tracks hi.boundedRecs hrange hall R splits'
  rw [hR.pinAnswer_eq] at hkvs hcount
  have hkvs' : kvs = (chosenOf (pinWindow R) all).map (RevRecord.shown keysOnly) := by
    refine (hw.resolve_left hR.notCompacted).trans (List.map_congr_left fun r hr => ?_)
    exact (hall.mem_chosenOf.mp hr).1.shown_eq cfg keysOnly
  have hfits : StartKeyFits prefix_ startKey R s.db ↔ ∀ k ∈ s.db.keysAt R,
      (inListRange prefix_ startKey k = true ↔ prefix_ <+: k ∧ startKey < k) :=
    forall₂_congr fun k _ => (inListRange_exact_iff hslash hne).symm
  rw [hfits]
  constructor
  · rintro ⟨recs', live, h', -, hmem, hlist, -⟩ k hk
    obtain ⟨r, hlive, rfl⟩ := (mem_keysAt h).mp hk
    obtain ⟨r', hlive', hk'⟩ := (mem_keysAt h').mp hk
    -- 返った鍵の列は、範囲から選ばれる鍵の列である
    have hkeys : live.map RevRecord.key = (chosenOf (pinWindow R) all).map RevRecord.key := by
      have heq : live.map (RevRecord.shown keysOnly) = kvs :=
        congrArg Prod.snd (Except.ok.inj (hlist.symm.trans hkvs))
      exact map_key_of_map_shown (heq.trans hkvs')
    constructor
    · intro hin
      have hm : r.key ∈ live.map RevRecord.key := by
        rw [hkeys]
        exact List.mem_map_of_mem (hall.mem_chosenOf.mpr ⟨hlive, hin⟩)
      obtain ⟨x, hx, hxk⟩ := List.mem_map.mp hm
      exact hxk ▸ ((hmem x).mp hx).2
    · intro hwant
      have hm : r.key ∈ live.map RevRecord.key :=
        List.mem_map.mpr ⟨r', (hmem r').mpr ⟨hlive', hk' ▸ hwant⟩, hk'⟩
      rw [hkeys] at hm
      obtain ⟨x, hx, hxk⟩ := List.mem_map.mp hm
      exact hxk ▸ (hall.mem_chosenOf.mp hx).2
  · intro hexact
    refine ⟨recs, chosenOf (pinWindow R) all, h, GroupScan.chosen_sorted hall.ordered, fun r => ?_,
      by rw [hkvs, hkvs'], hcount⟩
    rw [hall.mem_chosenOf]
    exact and_congr_right fun hlive => hexact r.key ((mem_keysAt h).mpr ⟨r, hlive, rfl⟩)

/-- `/a/` の下を `/a/b` の次から読む。 -/
theorem list_after_startKey_of_page :
    ∃ s, runSteps (Store.step .default) .init
        [.write (.create [47, 97, 47, 98] [1] 0) 0 1 2, .write (.create [47, 97, 47, 99] [2] 0) 0 2 3,
          .write (.create [47, 97, 46] [3] 0) 0 3 4] = some s ∧
      ReadsAfterStartKey .default [47, 97, 47] [47, 97, 47, 98] 0 false (fun _ => 0) (fun _ => 0)
        s.db := by
  have h : (runSteps (Store.step .default) .init
      [.write (.create [47, 97, 47, 98] [1] 0) 0 1 2, .write (.create [47, 97, 47, 99] [2] 0) 0 2 3,
        .write (.create [47, 97, 46] [3] 0) 0 3 4]).any (fun s =>
      decide (¬ PinCompacted 0 s.db ∧ 0 ≤ s.db.getLatestRev .default ∧
        StartKeyFits [47, 97, 47] [47, 97, 47, 98] 0 s.db)) = true := by
    decide +kernel
  obtain ⟨s, hs, hnc, hle, hfits⟩ := exists_of_any_decide h
  exact ⟨s, hs, (list_after_startKey_iff .default ⟨_, hs⟩ ⟨hnc, hle⟩ (by decide) (by decide) false _
    _).mpr hfits⟩

/-- prefix が `/a/`、`startKey` が `/a` の一覧に、prefix を持たない `/a.` が入る。 -/
theorem list_reads_before_prefix :
    ∃ s, runSteps (Store.step .default) .init
        [.write (.create [47, 97, 46] [1] 0) 0 1 2, .write (.create [47, 97, 47, 98] [2] 0) 0 2 3]
          = some s ∧
      Readable .default 0 s.db ∧
      list .default [47, 97, 47] [47, 97] 0 0 false (fun _ => 5) s.db
        = .ok (3, [⟨[47, 97, 46], 2, 2, 0, [1]⟩, ⟨[47, 97, 47, 98], 3, 3, 0, [2]⟩]) ∧
      ¬ ReadsAfterStartKey .default [47, 97, 47] [47, 97] 0 false (fun _ => 5) (fun _ => 5) s.db := by
  have h : (runSteps (Store.step .default) .init
      [.write (.create [47, 97, 46] [1] 0) 0 1 2,
        .write (.create [47, 97, 47, 98] [2] 0) 0 2 3]).any (fun s =>
      decide (¬ PinCompacted 0 s.db ∧ 0 ≤ s.db.getLatestRev .default ∧
        list .default [47, 97, 47] [47, 97] 0 0 false (fun _ => 5) s.db
          = .ok (3, [⟨[47, 97, 46], 2, 2, 0, [1]⟩, ⟨[47, 97, 47, 98], 3, 3, 0, [2]⟩]))) = true := by
    decide +kernel
  obtain ⟨s, hs, hnc, hle, hlist⟩ := exists_of_any_decide h
  refine ⟨s, hs, ⟨hnc, hle⟩, hlist, ?_⟩
  rintro ⟨recs, live, -, -, hmem, hlist', -⟩
  have heq : live.map (RevRecord.shown false)
      = [⟨[47, 97, 46], 2, 2, 0, [1]⟩, ⟨[47, 97, 47, 98], 3, 3, 0, [2]⟩] :=
    (Prod.mk.inj (Except.ok.inj (hlist'.symm.trans hlist))).2
  have hm : (⟨[47, 97, 46], 2, 2, 0, [1]⟩ : KeyValue) ∈ live.map (RevRecord.shown false) := by
    rw [heq]
    exact List.mem_cons_self
  obtain ⟨r, hr, hshown⟩ := List.mem_map.mp hm
  have hpre := ((hmem r).mp hr).2.1
  rw [← r.shown_key false, hshown] at hpre
  exact absurd hpre (by decide)

/-! ## 上限 -/

/-- 上限 `n` の `List` が、上限のない `List` の先頭 `n` 個を返すこと。 -/
def LimitLaw (cfg : Config) (prefix_ startKey : Key) (n : Nat) (R : Int) (keysOnly : Bool)
    (splits splits' : Nat → Nat) (db : Db) : Prop :=
  list cfg prefix_ startKey n R keysOnly splits db
    = (list cfg prefix_ startKey 0 R keysOnly splits' db).map (fun x => (x.1, x.2.take n))

/-- 範囲で鍵 `key` より前にある、`R` で生きた鍵の数。 -/
def Db.listedBefore (db : Db) (prefix_ startKey : Key) (R : Int) (key : Key) : Nat :=
  GroupScan.below RevRecord.key RevRecord.rev (fun r => pinWindow R r.rev) RevRecord.live
    (db.rangeRecords prefix_ startKey) key

/-- 生きた鍵 `n` 個の後で、索引の順に最初に読まれる record。 -/
def Db.afterLimit (db : Db) (prefix_ startKey : Key) (n : Nat) (R : Int) : Option RevRecord :=
  (db.rangeRecords prefix_ startKey).find?
    (fun r => decide (n ≤ db.listedBefore prefix_ startKey R r.key))

/-- `n` 個の後で最初に読まれる record が、窓の中の生きた record ではないこと。 -/
def StopsAtLimit (prefix_ startKey : Key) (n : Nat) (R : Int) (db : Db) : Prop :=
  ∀ r ∈ db.afterLimit prefix_ startKey n R, ¬ (pinWindow R r.rev = true ∧ r.live = true)

instance (prefix_ startKey : Key) (n : Nat) (R : Int) (db : Db) :
    Decidable (StopsAtLimit prefix_ startKey n R db) :=
  inferInstanceAs (Decidable (∀ r ∈ db.afterLimit prefix_ startKey n R, ¬ (_ ∧ _)))

/-- 範囲の record の列の上で述べた `afterLimit`。 -/
theorem afterLimit_eq (hall : db.rangeRecords prefix_ startKey = all.map RevRecord.indexed) (n : Nat)
    (R : Int) :
    db.afterLimit prefix_ startKey n R = (all.find? (fun r => decide (n ≤ GroupScan.below
      RevRecord.key RevRecord.rev (fun r => pinWindow R r.rev) RevRecord.live all r.key))).map
        RevRecord.indexed := by
  unfold Db.afterLimit Db.listedBefore
  rw [hall, List.find?_map]
  simp only [below_map_indexed]
  rfl

/-- 範囲を持たない `List` の鍵は一つなので、上限に達しない。 -/
theorem stopsAtLimit_of_error {e : Err} (hr : listRange prefix_ startKey = .error e) {n : Nat}
    (hn : 0 < n) : StopsAtLimit prefix_ startKey n R db := by
  have hslash : hasSlashSuffix prefix_ = false := by
    cases hs : hasSlashSuffix prefix_ with
    | false => rfl
    | true => simp [listRange, hs] at hr
  have hkey : ∀ r ∈ db.rangeRecords prefix_ startKey, r.key = prefix_ := by
    intro r hm
    have hin := (List.mem_filter.mp hm).2
    simpa [inListRange, hslash] using hin
  intro r hr
  have hrange := List.mem_of_find?_eq_some hr
  have hle : n ≤ db.listedBefore prefix_ startKey R r.key := by
    have hfound := List.find?_some (show (db.rangeRecords prefix_ startKey).find? _ = some r from hr)
    exact of_decide_eq_true hfound
  have hzero : db.listedBefore prefix_ startKey R r.key = 0 := by
    unfold Db.listedBefore GroupScan.below
    rw [List.length_eq_zero_iff, List.filter_eq_nil_iff]
    intro b hb
    rw [hkey r hrange, hkey b (GroupScan.mem_chosen.mp hb).1]
    simp
  rw [hzero] at hle
  exact absurd hle (not_le.mpr hn)

/-- 上限 `n` の走査が返す数は、`n` の後で最初に読まれる record で決まる。 -/
theorem length_le_limit_iff {n : Nat} (hn : 0 < n) {keysOnly : Bool} {R : Int} {count : Nat}
    (hord : IndexOrdered all) (hall : db.rangeRecords prefix_ startKey = all.map RevRecord.indexed)
    (hstop : (count = (pickedOf (pinWindow R) all).length ∧
        WantsBefore (listSpec cfg keysOnly n) (pinWindow R) all (all.length + 1)) ∨
      ∃ m, (listSpec cfg keysOnly n).wants
          (scanOf (pinWindow R) (all.take m)).emitted.length = false ∧
        count = (pickedOf (pinWindow R) (all.take m)).length ∧
        WantsBefore (listSpec cfg keysOnly n) (pinWindow R) all m) :
    count ≤ n ↔ StopsAtLimit prefix_ startKey n R db := by
  have hwants : ∀ {k : Nat}, (listSpec cfg keysOnly n).wants k = true ↔ k < n := by
    intro k
    simp only [listSpec, Bool.or_eq_true, decide_eq_true_eq]
    omega
  unfold StopsAtLimit
  rw [afterLimit_eq hall]
  rcases hstop with ⟨rfl, hread⟩ | ⟨m, hfull, rfl, hread⟩
  · -- 上限に達しないまま読み切った
    have hlt := fun j hj => hwants.mp (hread (hwants.mpr hn) j hj)
    have hnone : all.find? (fun r => decide (n ≤ GroupScan.below RevRecord.key RevRecord.rev
        (fun r => pinWindow R r.rev) RevRecord.live all r.key)) = none := by
      refine List.find?_eq_none.mpr fun x hx => ?_
      simpa using GroupScan.below_lt_of_read hord hlt x hx
    rw [hnone]
    refine iff_of_true (GroupScan.length_picked_of_read hord ?_) (fun r hr => by cases hr)
    have hend := hlt all.length (Nat.lt_succ_self _)
    rwa [List.take_length] at hend
  · have hlt := fun j hj => hwants.mp (hread (hwants.mpr hn) j hj)
    have hle : n ≤ (scanOf (pinWindow R) (all.take m)).emitted.length := by
      by_contra hc
      rw [hwants.mpr (not_le.mp hc)] at hfull
      cases hfull
    obtain ⟨b, read, htake, hb, hbefore⟩ := GroupScan.exists_stop hn hord hle hlt
    have hcount : (pickedOf (pinWindow R) (all.take m)).length
        = n + if pinWindow R b.rev && b.live then 1 else 0 :=
      GroupScan.length_picked_stop hord hle hlt htake
    have hfind : all.find? (fun r => decide (n ≤ GroupScan.below RevRecord.key RevRecord.rev
        (fun r => pinWindow R r.rev) RevRecord.live all r.key)) = some b := by
      have hsplit : read ++ b :: all.drop m = all := by
        rw [List.append_cons, ← htake, List.take_append_drop]
      refine List.find?_eq_some_iff_append.mpr ⟨decide_eq_true hb, read, all.drop m, hsplit.symm, ?_⟩
      intro x hx
      simpa using hbefore x hx
    rw [hfind, hcount, Option.map_some]
    constructor
    · rintro hc r hr ⟨hw, hl⟩
      cases hr
      have hboth : (pinWindow R b.rev && b.live) = true := Bool.and_eq_true_iff.mpr ⟨hw, hl⟩
      rw [if_pos hboth] at hc
      omega
    · intro hno
      have hboth : ¬ (pinWindow R b.rev && b.live) = true :=
        fun hc => hno b.indexed rfl (Bool.and_eq_true_iff.mp hc)
      rw [if_neg hboth, Nat.add_zero]

theorem capacityFits_iff {n : Nat} (hn : 0 < n) : capacityFits n = true ↔ 8 * (n : Int) ≤ maxAlloc := by
  have h0 : (n : Int) ≠ 0 := by omega
  simp only [capacityFits, listCapacity, if_neg h0, Bool.and_eq_true, decide_eq_true_eq]
  exact and_iff_right (Int.natCast_nonneg n)

theorem pinAnswer_ne_cap {α : Type} (cfg : Config) (db : Db) (R : Int) (a : α) :
    pinAnswer cfg db R a ≠ .error .capOutOfRange := by
  unfold pinAnswer
  split
  · simp
  · split <;> simp

/-- `make` の panic は、範囲の誤りより先に起きる。上限のない `List` には起きない。 -/
theorem not_limitLaw_of_not_fits {s : Store} (hs : s.Reachable cfg) {prefix_ startKey : Key} {n : Nat}
    (hl : capacityFits n = false) (R : Int) (keysOnly : Bool) (splits splits' : Nat → Nat) :
    ¬ LimitLaw cfg prefix_ startKey n R keysOnly splits splits' s.db := by
  obtain ⟨recs, hi⟩ := hs.inv
  unfold LimitLaw
  rw [list_of_not_fits hl]
  cases hrange : listRange prefix_ startKey with
  | error e =>
    obtain rfl : e = .prefixNotStartKey := by
      unfold listRange at hrange
      split at hrange
      · cases hrange
      · split at hrange
        · exact (Except.error.inj hrange).symm
        · cases hrange
    have hfull : list cfg prefix_ startKey 0 R keysOnly splits' s.db
        = .error .prefixNotStartKey := by
      simp only [list, capacityFits_zero, if_true, listWithCollector, hrange]
    rw [hfull]
    exact fun h => by cases h
  | ok range =>
    obtain ⟨all, hall, -⟩ := rangeRecords_eq hi.tracks.holds prefix_ startKey
    obtain ⟨full, hfull, -⟩ := list_within hi.tracks hi.boundedRecs hrange hall capacityFits_zero R
      keysOnly splits'
    rw [hfull, pinAnswer_map]
    exact fun h => pinAnswer_ne_cap cfg s.db R _ h.symm

/-- 容量 `n` の slice を作れるとき。 -/
theorem limitLaw_iff_of_fits {s : Store} (hs : s.Reachable cfg) {prefix_ startKey : Key} {n : Nat}
    (hn : 0 < n) (hl : capacityFits n = true) (R : Int) (keysOnly : Bool) (splits splits' : Nat → Nat) :
    LimitLaw cfg prefix_ startKey n R keysOnly splits splits' s.db ↔
      (¬ Readable cfg R s.db ∨ StopsAtLimit prefix_ startKey n R s.db) := by
  obtain ⟨recs, hi⟩ := hs.inv
  unfold LimitLaw
  cases hrange : listRange prefix_ startKey with
  | error e =>
    refine iff_of_true ?_ (Or.inr (stopsAtLimit_of_error hrange hn))
    simp only [list, hl, capacityFits_zero, if_true, listWithCollector, hrange, Except.map]
  | ok range =>
    obtain ⟨all, hall, hrecs⟩ := rangeRecords_eq hi.tracks.holds prefix_ startKey
    obtain ⟨kvs, hkvs, hstop⟩ := list_stops hi.tracks hi.boundedRecs hrange hall hl R keysOnly splits
    obtain ⟨full, hfull, hw⟩ := list_within hi.tracks hi.boundedRecs hrange hall capacityFits_zero R
      keysOnly splits'
    rw [hkvs, hfull, pinAnswer_map]
    by_cases hR : Readable cfg R s.db
    · obtain ⟨hfirst, hcount⟩ := hstop.resolve_left hR.notCompacted
      have hfull' : full = _ := hw.resolve_left hR.notCompacted
      have htake : kvs.take n = full.take n := by
        rw [hfull']
        simpa [within, hn.ne'] using hfirst
      rw [hR.pinAnswer_eq, hR.pinAnswer_eq, or_iff_right (not_not.mpr hR),
        ← length_le_limit_iff hn hall.ordered hrecs hcount]
      constructor
      · intro heq
        have heq : kvs = full.take n := congrArg Prod.snd (Except.ok.inj heq)
        rw [heq]
        exact List.length_take_le n full
      · intro hle
        rw [← htake, List.take_of_length_le hle]
    · refine iff_of_true ?_ (Or.inl hR)
      by_cases hc : PinCompacted R s.db
      · rw [pinAnswer_of_compacted hc, pinAnswer_of_compacted hc]
      · have hfuture : s.db.getLatestRev cfg < R := not_le.mp fun hle => hR ⟨hc, hle⟩
        unfold pinAnswer
        rw [if_neg hc, if_pos hfuture, if_neg hc, if_pos hfuture]

/-- 到達できる store で、上限 `n` の `List` が上限のない `List` の先頭 `n` 個を返すのは、容量 `n` の slice を作れて、
revision が読めないか、`n` 個の鍵の後で最初に読まれる record が窓の中の生きた record ではないときであり、そのときに
限る。 -/
theorem list_limit_iff (cfg : Config) {s : Store} (hs : s.Reachable cfg) (prefix_ startKey : Key)
    {n : Nat} (hn : 0 < n) (R : Int) (keysOnly : Bool) (splits splits' : Nat → Nat) :
    LimitLaw cfg prefix_ startKey n R keysOnly splits splits' s.db ↔
      8 * (n : Int) ≤ maxAlloc ∧
        (¬ Readable cfg R s.db ∨ StopsAtLimit prefix_ startKey n R s.db) := by
  rw [← capacityFits_iff hn]
  cases hl : capacityFits n with
  | false =>
    exact iff_of_false (not_limitLaw_of_not_fits hs hl R keysOnly splits splits')
      (fun h => Bool.false_ne_true h.1)
  | true =>
    exact (limitLaw_iff_of_fits hs hn hl R keysOnly splits splits').trans (and_iff_right rfl).symm

/-- 二つ目の鍵が消えている store で、一つだけ読む。 -/
theorem list_limit_of_deleted :
    ∃ s, runSteps (Store.step .default) .init
        [.write (.create [47, 97] [1] 0) 0 1 2, .write (.create [47, 98] [2] 0) 0 2 3,
          .write (.create [47, 99] [3] 0) 0 3 4, .write (.delete [47, 98] 0) 0 4 5,
          .startCompact 4, .compactBatch 0 5 6 true] = some s ∧
      LimitLaw .default [47] [47] 1 0 false (fun _ => 0) (fun _ => 5) s.db := by
  have h : (runSteps (Store.step .default) .init
      [.write (.create [47, 97] [1] 0) 0 1 2, .write (.create [47, 98] [2] 0) 0 2 3,
        .write (.create [47, 99] [3] 0) 0 3 4, .write (.delete [47, 98] 0) 0 4 5,
        .startCompact 4, .compactBatch 0 5 6 true]).any (fun s =>
      decide (StopsAtLimit [47] [47] 1 0 s.db)) = true := by
    decide +kernel
  obtain ⟨s, hs, h⟩ := exists_of_any_decide h
  exact ⟨s, hs, (list_limit_iff .default ⟨_, hs⟩ [47] [47] (by decide) 0 false _ _).mpr
    ⟨by decide, Or.inr h⟩⟩

/-- 上限 1 の `List` が二つの record を返す。二つ目は `/b` の古い revision である。 -/
theorem list_exceeds_limit :
    ∃ s, runSteps (Store.step .default) .init
        [.write (.create [47, 97] [1] 0) 0 1 2, .write (.create [47, 98] [2] 0) 0 2 3,
          .write (.update [47, 98] [3, 3] 3 0) 0 3 4] = some s ∧
      list .default [47] [47] 1 0 false (fun _ => 5) s.db
        = .ok (4, [⟨[47, 97], 2, 2, 0, [1]⟩, ⟨[47, 98], 3, 3, 0, [2]⟩]) ∧
      list .default [47] [47] 0 0 false (fun _ => 5) s.db
        = .ok (4, [⟨[47, 97], 2, 2, 0, [1]⟩, ⟨[47, 98], 3, 4, 0, [3, 3]⟩]) ∧
      ¬ LimitLaw .default [47] [47] 1 0 false (fun _ => 5) (fun _ => 5) s.db := by
  have h : (runSteps (Store.step .default) .init
      [.write (.create [47, 97] [1] 0) 0 1 2, .write (.create [47, 98] [2] 0) 0 2 3,
        .write (.update [47, 98] [3, 3] 3 0) 0 3 4]).any (fun s =>
      decide (list .default [47] [47] 1 0 false (fun _ => 5) s.db
          = .ok (4, [⟨[47, 97], 2, 2, 0, [1]⟩, ⟨[47, 98], 3, 3, 0, [2]⟩]) ∧
        list .default [47] [47] 0 0 false (fun _ => 5) s.db
          = .ok (4, [⟨[47, 97], 2, 2, 0, [1]⟩, ⟨[47, 98], 3, 4, 0, [3, 3]⟩]))) = true := by
    decide +kernel
  obtain ⟨s, hs, hone, hall⟩ := exists_of_any_decide h
  refine ⟨s, hs, hone, hall, fun hlaw => ?_⟩
  have hlaw : list .default [47] [47] (1 : Nat) 0 false (fun _ => 5) s.db = _ := hlaw
  rw [show ((1 : Nat) : Int) = 1 from rfl, hone, hall] at hlaw
  exact absurd hlaw (by decide)

end KubeFdb

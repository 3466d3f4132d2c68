import KubeFdb.Driver.Count
import KubeFdb.Lib.EachAfter
import KubeFdb.Properties.After
import KubeFdb.Properties.Views
import KubeFdb.Properties.Write

/-!
# 生きている鍵の数

commit の列の先頭部分で生きている鍵の集合を `liveKeys` と書く。record を一つ足すと、その event の
作成と削除の印の分だけ数が増減する（`card_liveKeys_concat`）。書き込みの操作が、生きていない鍵だけを
作り、生きている鍵だけを消すからである（`Follows`）。

tracker の entry は、`seedRev` より後ろの event をこの増減で反映する。したがって、ある revision の数から
始めた entry は、後の revision の数を持つ（`CountEntry.ExactAt.applyAll`）。
-/

namespace KubeFdb

open Tuple

variable {cfg : Config} {prefix_ : Key} {l hist : List RevRecord} {r : RevRecord}

/-- 列の終わりで鍵が生きていること。 -/
def isLive (l : List RevRecord) (k : Key) : Bool := (newest RevRecord.key l k).any RevRecord.live

theorem isLive_concat (k : Key) :
    isLive (l ++ [r]) k = if r.key = k then r.live else isLive l k := by
  unfold isLive
  rw [newest_concat]
  split <;> rfl

/-- database が表す列で鍵が生きているかは、database だけで決まる。 -/
theorem isLive_eq_getLast {db : Db} {recs : List RevRecord} (h : db.Holds recs) (k : Key) :
    isLive recs k = (db.getLast k).any RevRecord.live := by
  rw [getLast_eq h, isLive]
  cases newest RevRecord.key recs k <;> rfl

/-- 列の終わりで生きている、prefix に合う鍵。 -/
def liveKeys (prefix_ : Key) (l : List RevRecord) : Finset Key :=
  (l.map RevRecord.key).toFinset.filter
    (fun k => isLive l k = true ∧ doesEventHavePrefix k prefix_ = true)

theorem mem_liveKeys {k : Key} :
    k ∈ liveKeys prefix_ l ↔ isLive l k = true ∧ doesEventHavePrefix k prefix_ = true := by
  unfold liveKeys
  rw [Finset.mem_filter, and_iff_right_of_imp]
  -- 生きている鍵には record がある
  rintro ⟨hlive, -⟩
  obtain ⟨a, ha, -⟩ := (Option.any_eq_true _ _).mp hlive
  obtain ⟨ham, hak⟩ := newest_mem ha
  exact List.mem_toFinset.mpr (List.mem_map.mpr ⟨a, ham, hak⟩)

/-- 最新の record が見える鍵は、生きている鍵である。 -/
theorem exists_liveAt_iff {recs : List RevRecord} (h : SortedBy RevRecord.rev recs) {k : Key} :
    (∃ r, LiveAt 0 recs r ∧ r.key = k) ↔ isLive recs k = true := by
  unfold isLive
  rw [Option.any_eq_true]
  constructor
  · rintro ⟨r, hr, rfl⟩
    refine ⟨r, (newest_eq_some_iff h).mpr ⟨hr.mem, rfl, fun r' hr' hk => ?_⟩, hr.live⟩
    exact hr.newest r' hr' (by simp [pinWindow]) hk
  · rintro ⟨r, hr, hl⟩
    obtain ⟨hm, hk, hmax⟩ := (newest_eq_some_iff h).mp hr
    exact ⟨r, ⟨hm, by simp [pinWindow], hl, fun r' hr' _ hk' => hmax r' hr' (hk'.trans hk)⟩, hk⟩

/-- prefix 全体の走査は、watch が prefix に合うとする鍵を読む。 -/
theorem inListRange_self_eq (prefix_ key : Key) :
    inListRange prefix_ prefix_ key = doesEventHavePrefix key prefix_ := by
  rw [Bool.eq_iff_iff]
  unfold inListRange doesEventHavePrefix hasSlashSuffix
  by_cases hs : prefix_.getLast? = some 0x2F
  · simp only [hs, decide_true, if_true, ne_eq, not_true_eq_false, if_false, Bool.and_eq_true,
      Bool.or_eq_true, decide_eq_true_eq, Bool.true_and, List.isPrefixOf_iff_prefix]
    constructor
    · rintro ⟨hle, hlt | hp⟩
      · exact absurd hle (not_le.mpr hlt)
      · exact Or.inl hp
    · rintro (hp | rfl)
      · exact ⟨not_lt.mp hp.le, Or.inr hp⟩
      · exact ⟨le_rfl, Or.inr (List.prefix_refl _)⟩
  · simp [hs]

/-! ## record を足す -/

theorem liveKeys_concat_of_not_match (h : doesEventHavePrefix r.key prefix_ = false) :
    liveKeys prefix_ (l ++ [r]) = liveKeys prefix_ l := by
  ext k
  rw [mem_liveKeys, mem_liveKeys, isLive_concat]
  refine and_congr_left fun hk => ?_
  rw [if_neg (by rintro rfl; exact absurd (h.symm.trans hk) (by decide))]

theorem liveKeys_concat_of_live (h : doesEventHavePrefix r.key prefix_ = true)
    (hl : r.live = true) : liveKeys prefix_ (l ++ [r]) = insert r.key (liveKeys prefix_ l) := by
  ext k
  rw [Finset.mem_insert, mem_liveKeys, mem_liveKeys, isLive_concat]
  by_cases hk : r.key = k
  · subst hk
    simp [hl, h]
  · simp [hk, Ne.symm hk]

theorem liveKeys_concat_of_not_live (hl : r.live = false) :
    liveKeys prefix_ (l ++ [r]) = (liveKeys prefix_ l).erase r.key := by
  ext k
  rw [Finset.mem_erase, mem_liveKeys, mem_liveKeys, isLive_concat]
  by_cases hk : r.key = k
  · subst hk
    simp [hl]
  · simp [hk, Ne.symm hk]

/-- 列の後に書かれる record。作成は生きていない鍵に、それ以外は生きている鍵に書かれる。 -/
structure Follows (l : List RevRecord) (r : RevRecord) : Prop where
  create : r.record.isCreate = true → r.record.isDelete = false ∧ isLive l r.key = false
  other : r.record.isCreate = false → isLive l r.key = true

/-- 書き込みの操作が書く record。 -/
theorem WriteOp.Writes.follows {op : WriteOp} {record : Record} {size : Int}
    (hw : op.Writes (newest RevRecord.key l op.key) record size) (hk : r.key = op.key)
    (hc : r.record.isCreate = record.isCreate) (hd : r.record.isDelete = record.isDelete) :
    Follows l r := by
  have hlive : isLive l r.key = (newest RevRecord.key l op.key).any RevRecord.live := by
    rw [hk]
    rfl
  generalize newest RevRecord.key l op.key = last at hw hlive
  constructor
  · intro hcreate
    rw [hc] at hcreate
    rw [hd, hlive]
    cases hw with
    | createNew key value lease => exact ⟨rfl, rfl⟩
    | createOver key value lease last hdel => exact ⟨rfl, by simp [RevRecord.live, hdel]⟩
    | update key value revision lease last hdel hr => cases hcreate
    | delete key revision last hdel hr => cases hcreate
  · intro hcreate
    rw [hc] at hcreate
    rw [hlive]
    cases hw with
    | createNew key value lease => cases hcreate
    | createOver key value lease last hdel => cases hcreate
    | update key value revision lease last hdel hr => simp [RevRecord.live, hdel]
    | delete key revision last hdel hr => simp [RevRecord.live, hdel]

/-- record 一つによる数の増減。 -/
def liveDelta (prefix_ : Key) (r : RevRecord) : Int :=
  if doesEventHavePrefix r.key prefix_ then
    if r.record.isCreate then 1 else if r.record.isDelete then -1 else 0
  else 0

/-- **record を足すと、印の分だけ数が増減する。** -/
theorem card_liveKeys_concat (prefix_ : Key) (h : Follows l r) :
    ((liveKeys prefix_ (l ++ [r])).card : Int) = (liveKeys prefix_ l).card + liveDelta prefix_ r := by
  unfold liveDelta
  cases hm : doesEventHavePrefix r.key prefix_ with
  | false => rw [liveKeys_concat_of_not_match hm]; simp
  | true =>
    cases hc : r.record.isCreate with
    | true =>
      -- 生きていなかった鍵が加わる
      obtain ⟨hd, hnot⟩ := h.create hc
      have hmem : r.key ∉ liveKeys prefix_ l := fun hk =>
        absurd (hnot.symm.trans (mem_liveKeys.mp hk).1) (by decide)
      rw [liveKeys_concat_of_live hm (by simp [RevRecord.live, hd]),
        Finset.card_insert_of_notMem hmem]
      simp
    | false =>
      have hmem : r.key ∈ liveKeys prefix_ l := mem_liveKeys.mpr ⟨h.other hc, hm⟩
      cases hd : r.record.isDelete with
      | true =>
        rw [liveKeys_concat_of_not_live (by simp [RevRecord.live, hd]),
          Finset.card_erase_of_mem hmem]
        have hpos := Finset.card_pos.mpr ⟨_, hmem⟩
        simp only [if_true, Bool.false_eq_true, if_false]
        omega
      | false =>
        -- 更新された鍵は、もう数えてある
        rw [liveKeys_concat_of_live hm (by simp [RevRecord.live, hd]), Finset.insert_eq_of_mem hmem]
        simp

/-- どの record も、その前の列に続いて書かれたこと。 -/
def Chained (hist : List RevRecord) : Prop := ∀ l r, l ++ [r] <+: hist → Follows l r

theorem chained_nil : Chained [] := eachAfter_nil

theorem Chained.concat (h : Chained hist) (hr : Follows hist r) : Chained (hist ++ [r]) :=
  EachAfter.concat h hr

/-- prefix に合う鍵を作った record の数。 -/
def createdIn (prefix_ : Key) (l : List RevRecord) : Nat :=
  l.countP (fun r => doesEventHavePrefix r.key prefix_ && r.record.isCreate)

/-- prefix に合う鍵を消した record の数。 -/
def deletedIn (prefix_ : Key) (l : List RevRecord) : Nat :=
  l.countP (fun r => doesEventHavePrefix r.key prefix_ && (!r.record.isCreate && r.record.isDelete))

/-- 続きの列の分だけ、生きている鍵の数が増減する。 -/
theorem card_liveKeys_append (hch : Chained hist) (prefix_ : Key) (l : List RevRecord) :
    ∀ rs : List RevRecord, l ++ rs <+: hist →
      ((liveKeys prefix_ (l ++ rs)).card : Int)
        = (liveKeys prefix_ l).card + createdIn prefix_ rs - deletedIn prefix_ rs := by
  intro rs
  induction rs using List.reverseRecOn with
  | nil => simp [createdIn, deletedIn]
  | append_singleton rs r ih =>
    intro hp
    rw [← List.append_assoc] at hp ⊢
    rw [card_liveKeys_concat prefix_ (hch _ _ hp), ih ((List.prefix_append _ _).trans hp)]
    unfold createdIn deletedIn liveDelta
    simp only [List.countP_append, List.countP_singleton]
    cases doesEventHavePrefix r.key prefix_ <;> cases r.record.isCreate <;>
      cases r.record.isDelete <;> simp <;> omega

/-- 区間の record の分だけ、生きている鍵の数が増減する。 -/
theorem card_liveKeys_between (hs : SortedBy RevRecord.revision hist) (hch : Chained hist)
    (prefix_ : Key) {A B : Int} (hle : A ≤ B) :
    ((liveKeys prefix_ (atMost RevRecord.revision hist B)).card : Int)
      = (liveKeys prefix_ (atMost RevRecord.revision hist A)).card
        + createdIn prefix_ (between RevRecord.revision hist A B)
        - deletedIn prefix_ (between RevRecord.revision hist A B) := by
  rw [← atMost_append_between hs hle]
  refine card_liveKeys_append hch prefix_ _ _ ?_
  rw [atMost_append_between hs hle]
  exact atMost_isPrefix hs B

/-! ## tracker の entry -/

/-- event 一つで entry を増減させる。更新だけの event は飛ばす。 -/
def CountEntry.applyOne (prefix_ : Key) (e : CountEntry) (event : Event) : CountEntry :=
  if !event.create && !event.delete then e else e.apply event prefix_

/-- event の列で entry を増減させる。 -/
def CountEntry.applyAll (prefix_ : Key) (events : List Event) (e : CountEntry) : CountEntry :=
  events.foldl (CountEntry.applyOne prefix_) e

@[simp] theorem CountEntry.applyOne_seedRev (e : CountEntry) (event : Event) :
    (e.applyOne prefix_ event).seedRev = e.seedRev := by
  unfold CountEntry.applyOne CountEntry.apply
  split_ifs <;> rfl

@[simp] theorem CountEntry.applyAll_cons (event : Event) (events : List Event) (e : CountEntry) :
    e.applyAll prefix_ (event :: events) = (e.applyOne prefix_ event).applyAll prefix_ events := rfl

@[simp] theorem CountEntry.applyAll_seedRev (events : List Event) (e : CountEntry) :
    (e.applyAll prefix_ events).seedRev = e.seedRev := by
  induction events generalizing e with
  | nil => rfl
  | cons event events ih => simp [ih]

/-- revision `rev` より後ろの、prefix に合う鍵の作成の数。 -/
def createdAfter (prefix_ : Key) (rev : Int) (events : List Event) : Nat :=
  events.countP (fun e =>
    decide (rev < e.kv.modRevision) && doesEventHavePrefix e.kv.key prefix_ && e.create)

/-- revision `rev` より後ろの、prefix に合う鍵の削除の数。 -/
def deletedAfter (prefix_ : Key) (rev : Int) (events : List Event) : Nat :=
  events.countP (fun e =>
    decide (rev < e.kv.modRevision) && doesEventHavePrefix e.kv.key prefix_ &&
      (!e.create && e.delete))

theorem CountEntry.applyAll_count (events : List Event) (e : CountEntry) :
    (e.applyAll prefix_ events).count
      = e.count + createdAfter prefix_ e.seedRev events - deletedAfter prefix_ e.seedRev events := by
  induction events generalizing e with
  | nil => simp [CountEntry.applyAll, createdAfter, deletedAfter]
  | cons event events ih =>
    rw [CountEntry.applyAll_cons, ih, CountEntry.applyOne_seedRev]
    unfold createdAfter deletedAfter CountEntry.applyOne CountEntry.apply
    rw [List.countP_cons, List.countP_cons]
    by_cases hseed : event.kv.modRevision ≤ e.seedRev
    · simp [hseed, not_lt.mpr hseed]
    · cases doesEventHavePrefix event.kv.key prefix_ <;> cases event.create <;>
        cases event.delete <;> simp [hseed, not_le.mp hseed] <;> omega

theorem CountTracker.mem_applyEvent {t : CountTracker} {event : Event} {k : Key} {e : CountEntry} :
    (k, e) ∈ (t.applyEvent event).entries ↔ ∃ e₀, (k, e₀) ∈ t.entries ∧ e = e₀.applyOne k event := by
  unfold CountTracker.applyEvent CountEntry.applyOne
  split
  · simp
  · rw [OrdMap.mem_mapValues]

/-- tracker は、どの entry も同じように増減させる。 -/
theorem CountTracker.mem_apply {k : Key} {e : CountEntry} (events : List Event)
    (t : CountTracker) :
    (k, e) ∈ (t.apply events).entries ↔ ∃ e₀, (k, e₀) ∈ t.entries ∧ e = e₀.applyAll k events := by
  induction events generalizing t with
  | nil => simp [CountTracker.apply, CountEntry.applyAll]
  | cons event events ih =>
    rw [show t.apply (event :: events) = (t.applyEvent event).apply events from rfl, ih]
    simp only [CountTracker.mem_applyEvent, CountEntry.applyAll_cons]
    constructor
    · rintro ⟨e₁, ⟨e₀, h₀, rfl⟩, rfl⟩
      exact ⟨e₀, h₀, rfl⟩
    · rintro ⟨e₀, h₀, rfl⟩
      exact ⟨_, ⟨e₀, h₀, rfl⟩, rfl⟩

/-- 反映し終えた revision が `A` のとき、entry が `A` と `seedRev` の遅いほうの数を持つこと。 -/
def CountEntry.ExactAt (hist : List RevRecord) (prefix_ : Key) (A : Int) (e : CountEntry) : Prop :=
  e.count = (liveKeys prefix_ (atMost RevRecord.revision hist (max e.seedRev A))).card

/-- record のない区間では、数は変わらない。 -/
theorem CountEntry.ExactAt.of_between_nil (hs : SortedBy RevRecord.revision hist) {A B : Int}
    {e : CountEntry} (hle : A ≤ B) (hnil : between RevRecord.revision hist A B = [])
    (h : e.ExactAt hist prefix_ A) : e.ExactAt hist prefix_ B := by
  unfold CountEntry.ExactAt at *
  rw [h, ← atMost_append_between hs (max_le_max_left e.seedRev hle)]
  have hempty : between RevRecord.revision hist (max e.seedRev A) (max e.seedRev B) = [] := by
    refine List.eq_nil_iff_forall_not_mem.mpr fun r hr => ?_
    obtain ⟨hr, h1, h2⟩ := mem_between.mp hr
    have hmem : r ∈ between RevRecord.revision hist A B := by
      refine mem_between.mpr ⟨hr, ?_, ?_⟩
      · exact (le_max_right _ _).trans_lt h1
      · rcases le_max_iff.mp h2 with h2 | h2
        · exact absurd ((le_max_left _ _).trans_lt h1) (not_lt.mpr h2)
        · exact h2
    rw [hnil] at hmem
    exact absurd hmem List.not_mem_nil
  rw [hempty, List.append_nil]

/-- 次の record の event を反映する。 -/
theorem CountEntry.ExactAt.next (hs : SortedBy RevRecord.revision hist) (hch : Chained hist)
    {A : Int} {e : CountEntry} {event : Event}
    (hb : between RevRecord.revision hist A r.revision = [r])
    (hev : event.withoutPrev = (revRecordToEvent cfg r).withoutPrev)
    (h : e.ExactAt hist prefix_ A) : (e.applyOne prefix_ event).ExactAt hist prefix_ r.revision := by
  obtain ⟨hr, hA, -⟩ := mem_between.mp (hb ▸ List.mem_singleton_self r)
  have hc : event.create = r.record.isCreate := congrArg Event.create hev
  have hd : event.delete = r.record.isDelete := congrArg Event.delete hev
  have hrev : event.kv.modRevision = r.revision := congrArg (fun e : Event => e.kv.modRevision) hev
  have hk : event.kv.key = r.key := congrArg (fun e : Event => e.kv.key) hev
  by_cases hseed : r.revision ≤ e.seedRev
  · -- 走査がすでに数えた event は飛ばす
    have hsame : e.applyOne prefix_ event = e := by
      simp [CountEntry.applyOne, CountEntry.apply, hrev, hseed]
    rw [hsame]
    unfold CountEntry.ExactAt at *
    rw [max_eq_left hseed]
    rw [max_eq_left (hA.le.trans hseed)] at h
    exact h
  · have hseed' : e.seedRev < r.revision := not_le.mp hseed
    -- `A` と `seedRev` の遅いほうまでの列に、この record が続く
    have hlist : atMost RevRecord.revision hist r.revision
        = atMost RevRecord.revision hist (max e.seedRev A) ++ [r] := by
      rw [← atMost_append_between hs (max_le hseed'.le hA.le)]
      congr 1
      refine SortedBy.eq_of_mem_iff (between_sorted hs _ _) (SortedBy.singleton r) fun x => ?_
      rw [← hb, mem_between, mem_between]
      constructor
      · rintro ⟨hx, h1, h2⟩
        exact ⟨hx, (le_max_right _ _).trans_lt h1, h2⟩
      · rintro ⟨hx, h1, h2⟩
        have hxr : x ∈ [r] := hb ▸ mem_between.mpr ⟨hx, h1, h2⟩
        rw [List.mem_singleton.mp hxr]
        exact ⟨hr, max_lt hseed' hA, le_rfl⟩
    have hfollows : Follows (atMost RevRecord.revision hist (max e.seedRev A)) r :=
      hch _ _ (hlist ▸ atMost_isPrefix hs r.revision)
    have hcard := card_liveKeys_concat prefix_ hfollows
    rw [← hlist, ← h] at hcard
    have happly : (e.applyOne prefix_ event).count = e.count + liveDelta prefix_ r := by
      unfold CountEntry.applyOne CountEntry.apply liveDelta
      simp only [hc, hd, hrev, hk, hseed, decide_false, Bool.false_or]
      cases doesEventHavePrefix r.key prefix_ <;> cases r.record.isCreate <;>
        cases r.record.isDelete <;> simp [sub_eq_add_neg]
    unfold CountEntry.ExactAt
    rw [happly, ← hcard, CountEntry.applyOne_seedRev, max_eq_right hseed'.le]

/-- **区間の event をすべて反映すると、区間の終わりの数を持つ。** -/
theorem CountEntry.ExactAt.applyAll (hs : SortedBy RevRecord.revision hist) (hch : Chained hist)
    {A B : Int} {e : CountEntry} {events : List Event} (hle : A ≤ B)
    (hrep : Reports cfg events (between RevRecord.revision hist A B))
    (h : e.ExactAt hist prefix_ A) : (e.applyAll prefix_ events).ExactAt hist prefix_ B := by
  -- 区間の record についての帰納法。一つ反映するごとに、区間の始まりが進む
  generalize hrs : between RevRecord.revision hist A B = rs at hrep
  induction rs generalizing A e events with
  | nil =>
    obtain rfl : events = [] := List.map_eq_nil_iff.mp hrep
    exact h.of_between_nil hs hle hrs
  | cons r rs ih =>
    cases events with
    | nil => cases hrep
    | cons event events =>
      obtain ⟨hev, hrep⟩ := List.cons.inj hrep
      obtain ⟨hfirst, hrest⟩ := between_cons hs hrs
      have hrB : r.revision ≤ B := (mem_between.mp (hrs ▸ List.mem_cons_self)).2.2
      rw [CountEntry.applyAll_cons]
      exact ih hrB (h.next hs hch hfirst hev) hrest hrep

end KubeFdb

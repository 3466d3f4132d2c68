import KubeFdb.Lib.EachAfter
import KubeFdb.Properties.LiveKeys
import Mathlib.Computability.RegularExpressions

/-!
# 鍵の record の鎖

一つの鍵の record を revision の順に並べた列を、鍵の鎖という。書き込みの操作は、鎖の最後の record を見て
次の record を書く（`ChainStep`）。鎖が空から順に書かれたことを `WellChained` と書き、鎖の形はすべて
この帰納法で示す。

* `wellChained_matches` — 旗の列は `(create update* delete)* (create update*)?` に合う
* `wellChained_lastCreate` — `GetCreateRevision` は、最後の作成の revision である
-/

namespace KubeFdb

open Tuple

variable {hist pre : List RevRecord} {r : RevRecord}

/-- 鍵の鎖。 -/
def chainOf (hist : List RevRecord) (k : Key) : List RevRecord :=
  hist.filter (fun r => decide (r.key = k))

theorem chainOf_concat (k : Key) :
    chainOf (hist ++ [r]) k = if r.key = k then chainOf hist k ++ [r] else chainOf hist k := by
  unfold chainOf
  rw [List.filter_append, List.filter_singleton]
  by_cases hk : r.key = k <;> simp [hk]

/-- 鎖の次に書かれる record。作成は、空の鎖か tombstone の後に書かれる。更新と削除は生きている
record の後に書かれ、その作成の revision を引き継ぐ。 -/
structure ChainStep (pre : List RevRecord) (r : RevRecord) : Prop where
  create : r.record.isCreate = true →
    r.record.isDelete = false ∧ pre.getLast?.any RevRecord.live = false
  other : r.record.isCreate = false → ∃ last, pre.getLast? = some last ∧ last.live = true ∧
    r.record.createRevision = last.getCreateRevision
  prev : r.record.prevRevision = (pre.getLast?.map RevRecord.rev).getD dummyVersionstamp

/-- 書き込みの操作は、鎖の次の record を書く。 -/
theorem WriteOp.Writes.chainStep {op : WriteOp} {record : Record} {size : Int} {uuid : UUID}
    (hw : op.Writes pre.getLast? record size)
    (hr : r.record = { record with writeUUID := uuid }) : ChainStep pre r := by
  generalize hl : pre.getLast? = last at hw
  cases hw with
  | createNew key value lease =>
    exact ⟨fun _ => by simp [hr, hl], fun hc => by simp [hr] at hc, by simp [hr, hl]⟩
  | createOver key value lease last hd =>
    exact ⟨fun _ => by simp [hr, hl, RevRecord.live, hd], fun hc => by simp [hr] at hc,
      by simp [hr, hl]⟩
  | update key value revision lease last hd hrev =>
    exact ⟨fun hc => by simp [hr] at hc,
      fun _ => ⟨last, hl, by simp [RevRecord.live, hd], by simp [hr]⟩, by simp [hr, hl]⟩
  | delete key revision last hd hrev =>
    exact ⟨fun hc => by simp [hr] at hc,
      fun _ => ⟨last, hl, by simp [RevRecord.live, hd], by simp [hr]⟩, by simp [hr, hl]⟩

/-- 空の鎖から一つずつ書かれた鎖。 -/
abbrev WellChained (chain : List RevRecord) : Prop := EachAfter ChainStep chain

/-! ## 作成の revision -/

/-- 鎖の最後の record の `GetCreateRevision` は、鎖の最後の作成の revision である。 -/
theorem wellChained_lastCreate (h : WellChained pre) :
    (pre.filter (fun r => r.record.isCreate)).getLast?.map RevRecord.rev
      = pre.getLast?.map RevRecord.getCreateRevision := by
  induction h using EachAfter.concatRec with
  | nil => rfl
  | concat pre r h hr ih =>
    rw [List.filter_append, List.filter_singleton, List.getLast?_concat]
    cases hc : r.record.isCreate with
    | true => simp [RevRecord.getCreateRevision, hc]
    | false =>
      -- 更新と削除は、直前の record の作成の revision を引き継ぐ
      obtain ⟨last, hl, -, hcr⟩ := hr.other hc
      rw [cond_false, List.append_nil, ih, hl]
      simp [RevRecord.getCreateRevision, hc, hcr]

/-! ## 旗の列 -/

/-- 作成と削除の旗。 -/
def RevRecord.flags (r : RevRecord) : Bool × Bool := (r.record.isCreate, r.record.isDelete)

abbrev createFlags : Bool × Bool := (true, false)

abbrev updateFlags : Bool × Bool := (false, false)

abbrev deleteFlags : Bool × Bool := (false, true)

open RegularExpression

/-- `create update*`。生きている鍵の、最後の作成からの列である。 -/
def lifePattern : RegularExpression (Bool × Bool) := char createFlags * star (char updateFlags)

/-- `(create update* delete)*`。 -/
def closedPattern : RegularExpression (Bool × Bool) := star (lifePattern * char deleteFlags)

/-- `(create update* delete)* (create update*)?`。 -/
def chainPattern : RegularExpression (Bool × Bool) := closedPattern * (1 + lifePattern)

variable {w : List (Bool × Bool)}

/-- 繰り返しの後ろに、もう一つつなぐ。 -/
theorem star_concat {P : RegularExpression (Bool × Bool)} {v : List (Bool × Bool)}
    (hw : w ∈ P.star.matches') (hv : v ∈ P.matches') : w ++ v ∈ P.star.matches' := by
  have hmul : w ++ v ∈ KStar.kstar P.matches' * P.matches' := Language.append_mem_mul hw hv
  exact kstar_mul_le_kstar (a := P.matches') hmul

theorem closedPattern_create (h : w ∈ closedPattern.matches') :
    w ++ [createFlags] ∈ (closedPattern * lifePattern).matches' := by
  refine Language.append_mem_mul h ?_
  rw [← List.append_nil [createFlags]]
  exact Language.append_mem_mul rfl (Language.nil_mem_kstar _)

theorem lifePattern_update (h : w ∈ lifePattern.matches') :
    w ++ [updateFlags] ∈ lifePattern.matches' := by
  obtain ⟨a, ha, b, hb, rfl⟩ := Language.mem_mul.mp h
  rw [List.append_assoc]
  exact Language.append_mem_mul ha (star_concat hb rfl)

theorem openPattern_update (h : w ∈ (closedPattern * lifePattern).matches') :
    w ++ [updateFlags] ∈ (closedPattern * lifePattern).matches' := by
  obtain ⟨a, ha, b, hb, rfl⟩ := Language.mem_mul.mp h
  rw [List.append_assoc]
  exact Language.append_mem_mul ha (lifePattern_update hb)

theorem openPattern_delete (h : w ∈ (closedPattern * lifePattern).matches') :
    w ++ [deleteFlags] ∈ closedPattern.matches' := by
  obtain ⟨a, ha, b, hb, rfl⟩ := Language.mem_mul.mp h
  rw [List.append_assoc]
  exact star_concat ha (Language.append_mem_mul hb rfl)

/-- 最後の record が生きているかどうかで、旗の列がどちらの形かが決まる。 -/
theorem wellChained_open_or_closed (h : WellChained pre) :
    if pre.getLast?.any RevRecord.live then
      pre.map RevRecord.flags ∈ (closedPattern * lifePattern).matches'
    else pre.map RevRecord.flags ∈ closedPattern.matches' := by
  induction h using EachAfter.concatRec with
  | nil => exact Language.nil_mem_kstar _
  | concat pre r h hr ih =>
    rw [List.getLast?_concat, List.map_append, List.map_singleton, Option.any_some]
    cases hc : r.record.isCreate with
    | true =>
      obtain ⟨hd, hnot⟩ := hr.create hc
      rw [if_neg (by simp [hnot])] at ih
      rw [if_pos (by simp [RevRecord.live, hd]), RevRecord.flags, hc, hd]
      exact closedPattern_create ih
    | false =>
      obtain ⟨last, hl, hlive, -⟩ := hr.other hc
      rw [hl, Option.any_some, if_pos hlive] at ih
      cases hd : r.record.isDelete with
      | true =>
        rw [if_neg (by simp [RevRecord.live, hd]), RevRecord.flags, hc, hd]
        exact openPattern_delete ih
      | false =>
        rw [if_pos (by simp [RevRecord.live, hd]), RevRecord.flags, hc, hd]
        exact openPattern_update ih

theorem wellChained_matches (h : WellChained pre) :
    pre.map RevRecord.flags ∈ chainPattern.matches' := by
  have ho := wellChained_open_or_closed h
  split at ho
  · obtain ⟨a, ha, b, hb, he⟩ := Language.mem_mul.mp ho
    rw [← he]
    exact Language.append_mem_mul ha (Or.inr hb)
  · rw [← List.append_nil (pre.map RevRecord.flags)]
    exact Language.append_mem_mul ho (Or.inl rfl)

end KubeFdb

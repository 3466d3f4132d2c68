import KubeFdb.Lib.Run

/-!
# 線形化可能性

並行する呼び出しの履歴を、一つずつ実行する仕様と比べる。呼び出しは始まりと終わりの時刻を持ち、時刻の重ならない
呼び出しの前後は変えられない。仕様は `spec : σ → ι → ω → Option σ` で、状態 `σ` で入力 `ι` に出力 `ω` を返せる
ときに次の状態を与える。

* `Linearizes` — 履歴の並べ替えで、時刻の前後に背かず、仕様が順に受け入れるもの
* `linearizes_of_points` — 呼び出しの間の一点で効く並びは、時刻に背かない
* `Linearizable.of_filterMap` — 一部の呼び出しを除き、残りの間隔を縮めた履歴が線形化できるなら、元の履歴も
  線形化できる
-/

/-- 始まりと終わりの時刻を持つ呼び出し。 -/
structure TimedOp (ι ω : Type) where
  clientId : Int
  input : ι
  call : Int
  output : ω
  ret : Int
deriving DecidableEq

variable {σ τ ι ω : Type}

/-- 呼び出し一つについての仕様の一手。 -/
def TimedOp.step (spec : σ → ι → ω → Option σ) (s : σ) (op : TimedOp ι ω) : Option σ :=
  spec s op.input op.output

/-- 履歴 `h` の線形化。 -/
structure Linearizes (spec : σ → ι → ω → Option σ) (init : σ) (l h : List (TimedOp ι ω)) : Prop where
  perm : l.Perm h
  /-- 後に並ぶ呼び出しは、前の呼び出しが始まるより先に終わってはいない。 -/
  order : l.Pairwise (fun a b => ¬ b.ret < a.call)
  accepted : (runSteps (TimedOp.step spec) init l).isSome = true

def Linearizable (spec : σ → ι → ω → Option σ) (init : σ) (h : List (TimedOp ι ω)) : Prop :=
  ∃ l, Linearizes spec init l h

/-! ## 効く時点 -/

/-- どの呼び出しも自分の間隔の中の時点で効き、その時点の順に並んでいれば、並びは時刻に背かない。 -/
theorem linearizes_of_points {γ : Type} {spec : σ → ι → ω → Option σ} {init : σ}
    {h : List (TimedOp ι ω)} {l : List γ} (op : γ → TimedOp ι ω) (point : γ → Int)
    (hperm : (l.map op).Perm h) (hsorted : l.Pairwise (fun a b => point a ≤ point b))
    (hwithin : ∀ a ∈ l, (op a).call ≤ point a ∧ point a ≤ (op a).ret)
    (haccept : (runSteps (TimedOp.step spec) init (l.map op)).isSome = true) :
    Linearizes spec init (l.map op) h where
  perm := hperm
  order := by
    rw [List.pairwise_map]
    refine List.Pairwise.imp_of_mem (fun {a b} ha hb hab => ?_) hsorted
    exact not_lt.mpr ((hwithin a ha).1.trans (hab.trans (hwithin b hb).2))
  accepted := haccept

/-! ## 除いて縮めた履歴 -/

section

variable {α β : Type} {f : α → Option β}

/-- 除いて写した列の並べ替えは、残る要素の並べ替えから得られる。 -/
theorem exists_perm_filterMap : ∀ {l : List β} {h : List α}, l.Perm (h.filterMap f) →
    ∃ ks : List α, ks.Perm (h.filter (fun a => (f a).isSome)) ∧ ks.filterMap f = l
  | [], h, hp => by
    have hnil : h.filterMap f = [] := hp.symm.eq_nil
    refine ⟨[], ?_, rfl⟩
    have hall : ∀ a ∈ h, ¬ (f a).isSome = true := by
      intro a ha
      rw [List.filterMap_eq_nil_iff.mp hnil a ha]
      exact Bool.false_ne_true
    rw [List.filter_eq_nil_iff.mpr hall]
  | x :: l, h, hp => by
    obtain ⟨a, ha, hfa⟩ := List.mem_filterMap.mp (hp.subset List.mem_cons_self)
    obtain ⟨h₁, h₂, rfl⟩ := List.append_of_mem ha
    have hrest : l.Perm ((h₁ ++ h₂).filterMap f) := by
      refine List.Perm.cons_inv (a := x) (hp.trans ?_)
      rw [List.filterMap_append, List.filterMap_append, List.filterMap_cons_some hfa]
      exact List.perm_middle
    obtain ⟨ks, hks, hl⟩ := exists_perm_filterMap hrest
    refine ⟨a :: ks, ?_, by rw [List.filterMap_cons_some hfa, hl]⟩
    rw [List.filter_append] at hks ⊢
    rw [List.filter_cons_of_pos (by rw [hfa]; rfl)]
    exact (hks.cons a).trans List.perm_middle.symm

end

section

variable {ω' : Type} {spec : σ → ι → ω' → Option σ} {spec' : τ → ι → ω → Option τ}
  {f : TimedOp ι ω → Option (TimedOp ι ω')} {R : σ → τ → Prop}

/-- 残る呼び出しを揃って進める run。 -/
theorem runSteps_of_filterMap : ∀ {ks : List (TimedOp ι ω)} {s s' : σ} {t : τ},
    (∀ op ∈ ks, ∀ op' s s' t, f op = some op' → R s t → op'.step spec s = some s' →
      ∃ t', op.step spec' t = some t' ∧ R s' t') →
    (∀ op ∈ ks, (f op).isSome = true) → R s t →
    runSteps (TimedOp.step spec) s (ks.filterMap f) = some s' →
    ∃ t', runSteps (TimedOp.step spec') t ks = some t' ∧ R s' t'
  | [], s, s', t, _, _, hR, hr => ⟨t, rfl, by rw [← Option.some.inj hr]; exact hR⟩
  | op :: ks, s, s', t, hstep, hsome, hR, hr => by
    obtain ⟨op', hop'⟩ := Option.isSome_iff_exists.mp (hsome op List.mem_cons_self)
    rw [List.filterMap_cons_some hop'] at hr
    obtain ⟨s₁, h₁, hr⟩ := runSteps_cons.mp hr
    obtain ⟨t₁, ht, hR₁⟩ := hstep op List.mem_cons_self op' s s₁ t hop' hR h₁
    obtain ⟨t', htr, hR'⟩ := runSteps_of_filterMap
      (fun o ho => hstep o (List.mem_cons_of_mem _ ho))
      (fun o ho => hsome o (List.mem_cons_of_mem _ ho)) hR₁ hr
    exact ⟨t', runSteps_cons.mpr ⟨t₁, ht, htr⟩, hR'⟩

/-- 除いた呼び出しは、最後に続けて実行できる。 -/
theorem runSteps_of_dropped : ∀ {ds : List (TimedOp ι ω)} {s : σ} {t : τ},
    (∀ op ∈ ds, ∀ s t, R s t → ∃ t', op.step spec' t = some t' ∧ R s t') → R s t →
    (runSteps (TimedOp.step spec') t ds).isSome = true
  | [], _, _, _, _ => rfl
  | op :: ds, s, t, hdrop, hR => by
    obtain ⟨t₁, ht, hR₁⟩ := hdrop op List.mem_cons_self s t hR
    rw [runSteps, ht, Option.bind_some]
    exact runSteps_of_dropped (fun o ho => hdrop o (List.mem_cons_of_mem _ ho)) hR₁

/-- **除いて縮めた履歴の線形化から、元の履歴の線形化が得られる。** 残る呼び出しは間隔が縮み、元の出力は写した
出力より多くを許す。除いた呼び出しは、どの呼び出しの始まりより先にも終わらず、いつでも受け入れられる。 -/
theorem Linearizable.of_filterMap {h : List (TimedOp ι ω)} {init : σ} {init' : τ}
    (hinit : R init init')
    (hinterval : ∀ op ∈ h, ∀ op', f op = some op' → op.call ≤ op'.call ∧ op'.ret ≤ op.ret)
    (hstep : ∀ op ∈ h, ∀ op' s s' t, f op = some op' → R s t → op'.step spec s = some s' →
      ∃ t', op.step spec' t = some t' ∧ R s' t')
    (hlate : ∀ op ∈ h, f op = none → ∀ a ∈ h, a.call ≤ op.ret)
    (hdrop : ∀ op ∈ h, f op = none → ∀ s t, R s t → ∃ t', op.step spec' t = some t' ∧ R s t')
    (hl : Linearizable spec init (h.filterMap f)) : Linearizable spec' init' h := by
  obtain ⟨l, hperm, horder, hacc⟩ := hl
  obtain ⟨ks, hks, rfl⟩ := exists_perm_filterMap hperm
  -- 除いた呼び出しは最後に並べる
  have hmem : ∀ op ∈ ks, op ∈ h ∧ (f op).isSome = true := fun op ho =>
    List.mem_filter.mp (hks.subset ho)
  have hdropped : ∀ op ∈ h.filter (fun a => !(f a).isSome), op ∈ h ∧ f op = none := by
    intro op ho
    obtain ⟨hh, hn⟩ := List.mem_filter.mp ho
    exact ⟨hh, by simpa using hn⟩
  refine ⟨ks ++ h.filter (fun a => !(f a).isSome), ?_, ?_, ?_⟩
  · exact (hks.append_right _).trans (List.filter_append_perm _ h)
  · refine List.pairwise_append.mpr ⟨?_, ?_, ?_⟩
    · refine List.Pairwise.imp_of_mem (fun {a b} ha hb hab => ?_) (List.pairwise_filterMap.mp horder)
      obtain ⟨a', ha'⟩ := Option.isSome_iff_exists.mp (hmem a ha).2
      obtain ⟨b', hb'⟩ := Option.isSome_iff_exists.mp (hmem b hb).2
      have hle := not_lt.mp (hab a' ha' b' hb')
      exact not_lt.mpr ((hinterval a (hmem a ha).1 a' ha').1.trans
        (hle.trans (hinterval b (hmem b hb).1 b' hb').2))
    · refine List.pairwise_of_forall_mem_list (fun a ha b hb => ?_)
      exact not_lt.mpr (hlate b (hdropped b hb).1 (hdropped b hb).2 a (hdropped a ha).1)
    · intro a ha b hb
      exact not_lt.mpr (hlate b (hdropped b hb).1 (hdropped b hb).2 a (hmem a ha).1)
  · obtain ⟨s', hs'⟩ := Option.isSome_iff_exists.mp hacc
    obtain ⟨t', ht', hR⟩ := runSteps_of_filterMap (fun op ho => hstep op (hmem op ho).1)
      (fun op ho => (hmem op ho).2) hinit hs'
    rw [runSteps_append, ht', Option.bind_some]
    exact runSteps_of_dropped (fun op ho => hdrop op (hdropped op ho).1 (hdropped op ho).2) hR

end

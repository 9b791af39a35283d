import EnvKeeper.Proofs.FirstSeen
import EnvKeeper.Table
import Mathlib.Data.List.Induction
import Mathlib.Data.List.Nodup

/-! Tables that are filled one key after the other: no key comes twice, and new keys stand at the end
in the order in which they were put. Filling a table from another one looks at what that one holds,
not at how it was filled. -/

namespace EnvKeeper.Table

variable {κ α : Type} [DecidableEq κ]

theorem nodup_keys_put {t : Table κ α} (k : κ) (a : α) (h : t.keys.Nodup) :
    (t.put k a).keys.Nodup := by
  rw [keys_put]
  split
  · exact h
  · next hk =>
    refine List.nodup_append.2 ⟨h, List.nodup_singleton k, fun x hx y hy he => ?_⟩
    exact hk (List.mem_singleton.1 hy ▸ he ▸ hx)

theorem mem_of_mem_put {t : Table κ α} {k : κ} {a : α} {x : κ × α} (h : x ∈ t.put k a) :
    x = (k, a) ∨ x ∈ t := by
  induction t with
  | nil => exact .inl (List.mem_singleton.1 h)
  | cons p t ih =>
    unfold put at h
    split at h
    · next hk =>
      rcases List.mem_cons.1 h with hx | hx
      · exact .inl (hk ▸ hx)
      · exact .inr (List.mem_cons_of_mem _ hx)
    · rcases List.mem_cons.1 h with hx | hx
      · exact .inr (hx ▸ List.mem_cons_self)
      · exact (ih hx).imp_right (List.mem_cons_of_mem _)

theorem nodup_keys_foldl (l : List (κ × α)) {t : Table κ α} (h : t.keys.Nodup) :
    (l.foldl (fun t (k, a) => t.put k a) t).keys.Nodup := by
  induction l generalizing t with
  | nil => exact h
  | cons p l ih => exact ih (nodup_keys_put p.1 p.2 h)

theorem put_of_not_mem {t : Table κ α} {k : κ} (a : α) (h : k ∉ t.keys) :
    t.put k a = t ++ [(k, a)] := by
  induction t with
  | nil => rfl
  | cons p t ih =>
    obtain ⟨hk, ht⟩ := not_or.1 (mt List.mem_cons.2 h)
    rw [put, if_neg (Ne.symm hk), ih ht]
    rfl

theorem foldl_put_new {t l : Table κ α} (h : (t.keys ++ l.keys).Nodup) :
    l.foldl (fun t (k, a) => t.put k a) t = t ++ l := by
  induction l generalizing t with
  | nil => exact (List.append_nil t).symm
  | cons p l ih =>
    obtain ⟨k, a⟩ := p
    have hk : k ∉ t.keys := fun hm =>
      (List.nodup_append.1 h).2.2 k hm k List.mem_cons_self rfl
    have hput := put_of_not_mem a hk
    have hkeys : ((t ++ [(k, a)]).keys ++ keys l).Nodup := by
      simpa [keys] using h
    rw [List.foldl_cons]
    show l.foldl _ (t.put k a) = _
    rw [hput, ih hkeys, List.append_assoc]
    rfl

/-- The table with all that `u` holds put in, one key after the other. -/
def update (t u : Table κ α) : Table κ α := u.foldl (fun t (k, a) => t.put k a) t

@[simp] theorem update_nil (t : Table κ α) : t.update [] = t := rfl

@[simp] theorem update_cons (t : Table κ α) (k : κ) (a : α) (u : Table κ α) :
    t.update ((k, a) :: u) = (t.put k a).update u := rfl

theorem update_append (t u v : Table κ α) : t.update (u ++ v) = (t.update u).update v :=
  List.foldl_append

theorem put_put_self (t : Table κ α) (k : κ) (a b : α) : (t.put k a).put k b = t.put k b := by
  induction t with
  | nil => simp [put]
  | cons p t ih =>
    obtain ⟨j, c⟩ := p
    by_cases h : j = k
    · simp [put, h]
    · simp [put, h, ih]

/-- Two keys can be put in either order if one of them is there already. -/
theorem put_comm {t : Table κ α} {k j : κ} (a b : α) (hk : k ∈ t.keys) (h : j ≠ k) :
    (t.put j b).put k a = (t.put k a).put j b := by
  induction t with
  | nil => simp [keys] at hk
  | cons p t ih =>
    obtain ⟨i, c⟩ := p
    by_cases hi : i = k
    · subst hi
      simp [put, Ne.symm h]
    · have hmem : k ∈ keys t := (List.mem_cons.1 hk).resolve_left (Ne.symm hi)
      by_cases hj : i = j
      · simp [put, hj, h]
      · simp [put, hi, hj, ih hmem]

theorem update_put_of_mem {t u : Table κ α} {k : κ} (a : α) (hk : k ∈ t.keys) (hu : k ∉ u.keys) :
    (t.update u).put k a = (t.put k a).update u := by
  induction u generalizing t with
  | nil => rfl
  | cons p u ih =>
    obtain ⟨j, b⟩ := p
    obtain ⟨hj, hu⟩ := not_or.1 (mt List.mem_cons.2 hu)
    have hmem : k ∈ (t.put j b).keys := by
      rw [keys_put]
      split
      · exact hk
      · exact List.mem_append_left _ hk
    rw [update_cons, update_cons, ih hmem hu, put_comm a b hk (Ne.symm hj)]

theorem update_put {u : Table κ α} (t : Table κ α) (k : κ) (a : α) (hu : u.keys.Nodup) :
    t.update (u.put k a) = (t.update u).put k a := by
  induction u generalizing t with
  | nil => rfl
  | cons p u ih =>
    obtain ⟨j, b⟩ := p
    obtain ⟨hj, hu⟩ := List.nodup_cons.1 hu
    by_cases h : j = k
    · subst h
      have hmem : j ∈ (t.put j b).keys := by
        rw [mem_keys, get?_put, if_pos rfl]
        rfl
      rw [put, if_pos rfl, update_cons, update_cons, update_put_of_mem a hmem hj, put_put_self]
    · rw [put, if_neg h, update_cons, update_cons, ih _ hu]

/-- It makes no difference whether keys that come again are put together first. -/
theorem update_update_nil (t : Table κ α) (l : List (κ × α)) :
    t.update (update [] l) = t.update l := by
  induction l using List.reverseRecOn with
  | nil => rfl
  | append_singleton l p ih =>
    obtain ⟨k, a⟩ := p
    have hnodup : (update [] l).keys.Nodup := nodup_keys_foldl l .nil
    calc
      t.update (update [] (l ++ [(k, a)]))
        = t.update ((update [] l).put k a) := by rw [update_append]; rfl
      _ = (t.update (update [] l)).put k a := update_put t k a hnodup
      _ = (t.update l).put k a := by rw [ih]
      _ = t.update (l ++ [(k, a)]) := by rw [update_append]; rfl

theorem get?_update {u : Table κ α} (t : Table κ α) (x : κ) (hu : u.keys.Nodup) :
    (t.update u).get? x = (u.get? x).or (t.get? x) := by
  induction u generalizing t with
  | nil => rfl
  | cons p u ih =>
    obtain ⟨k, a⟩ := p
    obtain ⟨hk, hu⟩ := List.nodup_cons.1 hu
    rw [update_cons, ih _ hu, get?_put, get?]
    by_cases h : k = x
    · subst h
      have hnone : get? u k = none := by
        rw [← Option.not_isSome_iff_eq_none, ← mem_keys]
        exact hk
      rw [if_pos rfl, if_pos rfl, hnone]
      rfl
    · rw [if_neg h, if_neg h]

theorem keys_update {u : Table κ α} (t : Table κ α) (hu : u.keys.Nodup) :
    (t.update u).keys = t.keys ++ u.keys.filter (· ∉ t.keys) := by
  induction u generalizing t with
  | nil => simp [keys]
  | cons p u ih =>
    obtain ⟨k, a⟩ := p
    obtain ⟨hk, hu⟩ := List.nodup_cons.1 hu
    have hcons : keys ((k, a) :: u) = k :: keys u := rfl
    rw [update_cons, ih _ hu, keys_put, hcons]
    by_cases h : k ∈ t.keys
    · simp [h]
    · have hne : ∀ x ∈ keys u, x ≠ k := fun x hx he => hk (he ▸ hx)
      rw [if_neg h, List.filter_cons_of_pos (by simpa using h), List.append_assoc]
      refine congrArg (fun l => t.keys ++ k :: l) (List.filter_congr fun x hx => ?_)
      simp [hne x hx]

theorem isFirstSeen_keys_update (l : List (κ × α)) :
    IsFirstSeen (l.map Prod.fst) (update [] l).keys := by
  induction l using List.reverseRecOn with
  | nil => exact ⟨.nil, fun _ => Iff.rfl, .nil⟩
  | append_singleton l p ih =>
    obtain ⟨k, a⟩ := p
    rw [update_append, update_cons, update_nil, keys_put, List.map_append]
    exact ih.concat k

/-- Keys that do not come twice can be listed in any order: at most one pair has a given key. -/
theorem filter_key_perm {l l' : List (κ × α)} (h : l.Perm l') (hl : (l.map Prod.fst).Nodup) (k : κ) :
    l'.filter (·.1 = k) = l.filter (·.1 = k) := by
  have hperm : (l.filter (·.1 = k)).Perm (l'.filter (·.1 = k)) := h.filter _
  have hnodup : ((l.filter (·.1 = k)).map Prod.fst).Nodup := hl.sublist (List.filter_sublist.map _)
  have hkey : ∀ p ∈ l.filter (·.1 = k), p.1 = k := fun p hp => by
    simpa using (List.mem_filter.1 hp).2
  generalize l.filter (·.1 = k) = f at hperm hnodup hkey
  match f with
  | [] => exact hperm.nil_eq.symm
  | [p] => exact List.perm_singleton.1 hperm.symm
  | p :: q :: f =>
    have hpq : p.1 = q.1 := by rw [hkey p (by simp), hkey q (by simp)]
    simp [hpq] at hnodup

theorem get?_update_nil (l : List (κ × α)) (k : κ) :
    (update [] l).get? k = (l.filter (·.1 = k)).getLast?.map Prod.snd := by
  induction l using List.reverseRecOn with
  | nil => rfl
  | append_singleton l p ih =>
    obtain ⟨j, a⟩ := p
    rw [update_append, update_cons, update_nil, get?_put, ih, List.filter_append]
    by_cases h : j = k <;> simp [h]

theorem mem_of_mem_update {l : List (κ × α)} {t : Table κ α} {x : κ × α} (h : x ∈ t.update l) :
    x ∈ t ∨ x ∈ l := by
  induction l generalizing t with
  | nil => exact .inl h
  | cons p l ih =>
    obtain ⟨k, a⟩ := p
    rcases ih h with h | h
    · rcases mem_of_mem_put h with rfl | h
      · exact .inr List.mem_cons_self
      · exact .inl h
    · exact .inr (List.mem_cons_of_mem _ h)

theorem mem_of_get? {t : Table κ α} {k : κ} {a : α} (h : t.get? k = some a) : (k, a) ∈ t := by
  induction t with
  | nil => cases h
  | cons p t ih =>
    unfold get? at h
    split at h
    · next hk =>
      cases h
      rw [← hk]
      exact List.mem_cons_self
    · exact List.mem_cons_of_mem _ (ih h)

theorem get?_of_mem {t : Table κ α} (ht : t.keys.Nodup) {k : κ} {a : α} (h : (k, a) ∈ t) :
    t.get? k = some a := by
  induction t with
  | nil => cases h
  | cons p t ih =>
    obtain ⟨j, b⟩ := p
    obtain ⟨hj, ht⟩ := List.nodup_cons.1 ht
    rcases List.mem_cons.1 h with he | h
    · cases he
      exact if_pos rfl
    · have hne : j ≠ k := fun he => hj (List.mem_map.2 ⟨_, h, he.symm⟩)
      rw [get?, if_neg hne, ih ht h]

end EnvKeeper.Table

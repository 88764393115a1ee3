import Mathlib.Order.Lattice
import Mathlib.Data.List.Basic

/-!
# Finite maps in key order, and loops that erase while they iterate

`OrderedMap` is a finite map as the list of its entries in key order, which is what an in-order
traversal of a search tree sees.

* `OrderedMap.get?_set` : the map after writing one key.
* `OrderedMap.begin?`, `OrderedMap.next?`, `OrderedMap.erase` : iterators, named by the keys they
  stand at, and erasing at one.
* `OrderedMap.sweep` : a loop from the first entry to the last that erases some of them.
* `OrderedMap.sweep_induction` : the invariant rule of that loop; it also gives termination
  without an error. `OrderedMap.sweep_state` is the rule for the state alone.
* `OrderedMap.sweep_of_get?_some` : what it does to one key.
* `perm_of_filter_perm`, `filter_flatMap_of_keyed` : lists whose elements carry a key, compared
  key by key.
-/

/-! ### Elements with a key -/

section Keyed

variable {α β κ : Type*} [DecidableEq κ]

/-- Lists that agree key by key, as multisets, agree as multisets. -/
theorem perm_of_filter_perm [DecidableEq α] (key : α → κ) {xs ys : List α}
    (h : ∀ k, (xs.filter (key · = k)).Perm (ys.filter (key · = k))) : xs.Perm ys := by
  rw [List.perm_iff_count]
  intro a
  have hcount := (List.perm_iff_count.mp (h (key a))) a
  rwa [List.count_filter (by simp), List.count_filter (by simp)] at hcount

/-- Of groups of elements that all have their group's key, those with key `k` are the groups
with key `k`. -/
theorem filter_flatMap_of_keyed (key : α → κ) (groupKey : β → κ) {f : β → List α} {gs : List β}
    (h : ∀ g ∈ gs, ∀ a ∈ f g, key a = groupKey g) (k : κ) :
    (gs.flatMap f).filter (key · = k) = (gs.filter (groupKey · = k)).flatMap f := by
  induction gs with
  | nil => rfl
  | cons g gs ih =>
      have hg := h g List.mem_cons_self
      have hrest := ih fun g' hg' => h g' (List.mem_cons_of_mem g hg')
      rw [List.flatMap_cons, List.filter_append, hrest]
      by_cases hk : groupKey g = k
      · have hall : (f g).filter (key · = k) = f g :=
          List.filter_eq_self.mpr fun a ha => by simp [hg a ha, hk]
        simp [hk, hall]
      · have hnone : (f g).filter (key · = k) = [] :=
          List.filter_eq_nil_iff.mpr fun a ha => by simp [hg a ha, hk]
        simp [hk, hnone]

end Keyed

/-! ### Maps -/

/-- A finite map as the list of its entries in key order. -/
structure OrderedMap (κ ν : Type) [LinearOrder κ] where
  entries : List (κ × ν)
  sorted : entries.Pairwise fun a b => a.1 < b.1

namespace OrderedMap

variable {κ ν : Type} [LinearOrder κ]

/-- A map is determined by its entries. -/
@[ext]
theorem ext {m m' : OrderedMap κ ν} (h : m.entries = m'.entries) : m = m' := by
  obtain ⟨es, hes⟩ := m
  obtain ⟨es', hes'⟩ := m'
  obtain rfl : es = es' := h
  rfl

/-- The map without entries. -/
def empty : OrderedMap κ ν := ⟨[], List.Pairwise.nil⟩

/-- The value of a key. -/
def get? (m : OrderedMap κ ν) (k : κ) : Option ν := m.entries.lookup k

/-- Write a key in a list of entries in key order. -/
def setEntry (k : κ) (v : ν) : List (κ × ν) → List (κ × ν)
  | [] => [(k, v)]
  | e :: es =>
      if k < e.1 then (k, v) :: e :: es
      else if k = e.1 then (k, v) :: es
      else e :: setEntry k v es

theorem mem_setEntry {k : κ} {v : ν} {a : κ × ν} :
    ∀ {es : List (κ × ν)}, a ∈ setEntry k v es → a = (k, v) ∨ a ∈ es
  | [], h => Or.inl (List.mem_singleton.mp h)
  | e :: es, h => by
      unfold setEntry at h
      split_ifs at h
      · exact List.mem_cons.mp h
      · exact (List.mem_cons.mp h).imp_right (List.mem_cons_of_mem e)
      · rcases List.mem_cons.mp h with rfl | h
        · exact Or.inr List.mem_cons_self
        · exact (mem_setEntry h).imp_right (List.mem_cons_of_mem e)

theorem sorted_setEntry (k : κ) (v : ν) :
    ∀ {es : List (κ × ν)}, (es.Pairwise fun a b => a.1 < b.1) →
      (setEntry k v es).Pairwise fun a b => a.1 < b.1
  | [], _ => List.pairwise_singleton _ _
  | e :: es, h => by
      obtain ⟨hhead, htail⟩ := List.pairwise_cons.mp h
      unfold setEntry
      -- the key goes before the first entry, replaces it, or goes behind it
      split_ifs with hlt heq
      · refine List.pairwise_cons.mpr ⟨fun a ha => ?_, h⟩
        rcases List.mem_cons.mp ha with rfl | ha
        · exact hlt
        · exact hlt.trans (hhead a ha)
      · exact List.pairwise_cons.mpr ⟨fun a ha => heq ▸ hhead a ha, htail⟩
      · refine List.pairwise_cons.mpr ⟨fun a ha => ?_, sorted_setEntry k v htail⟩
        rcases mem_setEntry ha with rfl | ha
        · exact lt_of_le_of_ne (not_lt.mp hlt) (Ne.symm heq)
        · exact hhead a ha

/-- Write a key: insert it or replace its value. -/
def set (m : OrderedMap κ ν) (k : κ) (v : ν) : OrderedMap κ ν :=
  ⟨setEntry k v m.entries, sorted_setEntry k v m.sorted⟩

theorem lookup_cons_eq_ite (k : κ) (e : κ × ν) (es : List (κ × ν)) :
    (e :: es).lookup k = if k = e.1 then some e.2 else es.lookup k := by
  rw [List.lookup_cons]
  split_ifs with h
  · rw [beq_iff_eq.mpr h]
  · rw [beq_eq_false_iff_ne.mpr h]

/-- The map after writing one key. -/
theorem get?_set (m : OrderedMap κ ν) (k k' : κ) (v : ν) :
    (m.set k v).get? k' = if k' = k then some v else m.get? k' := by
  show (setEntry k v m.entries).lookup k' = if k' = k then some v else m.entries.lookup k'
  induction m.entries with
  | nil => rw [setEntry, lookup_cons_eq_ite]
  | cons e es ih =>
      rw [setEntry, lookup_cons_eq_ite k' e es]
      by_cases hlt : k < e.1
      · rw [if_pos hlt, lookup_cons_eq_ite, lookup_cons_eq_ite]
      · rw [if_neg hlt]
        by_cases heq : k = e.1
        · rw [if_pos heq, lookup_cons_eq_ite, ← heq]
          split_ifs <;> rfl
        · rw [if_neg heq, lookup_cons_eq_ite, ih]
          -- the written key lies behind the first entry
          split_ifs with he hk hk
          · exact absurd (hk.symm.trans he) heq
          all_goals rfl

/-- What is written to a key twice is what is written last. -/
theorem set_set (m : OrderedMap κ ν) (k : κ) (v w : ν) : (m.set k v).set k w = m.set k w := by
  ext1
  show setEntry k w (setEntry k v m.entries) = setEntry k w m.entries
  induction m.entries with
  | nil => simp [setEntry]
  | cons e es ih =>
      by_cases hlt : k < e.1
      · simp [setEntry, hlt]
      · by_cases heq : k = e.1
        · simp [setEntry, heq]
        · simp [setEntry, hlt, heq, ih]

/-- A key that no entry has is not found. -/
theorem lookup_eq_none_of_ne {es : List (κ × ν)} {k : κ} (h : ∀ a ∈ es, a.1 ≠ k) :
    es.lookup k = none :=
  List.lookup_eq_none_iff.mpr fun a ha => bne_iff_ne.mpr (h a ha).symm

section Sorted

variable {kept rest : List (κ × ν)} {e : κ × ν}

/-- In a list with increasing keys an entry has the key to itself. -/
theorem ne_of_sorted (h : (kept ++ e :: rest).Pairwise fun a b => a.1 < b.1) :
    (∀ a ∈ kept, a.1 ≠ e.1) ∧ ∀ a ∈ rest, a.1 ≠ e.1 := by
  obtain ⟨-, hrest, hcross⟩ := List.pairwise_append.mp h
  exact ⟨fun a ha => (hcross a ha e List.mem_cons_self).ne,
    fun a ha => ((List.pairwise_cons.mp hrest).1 a ha).ne'⟩

theorem lookup_self_of_sorted (h : (kept ++ e :: rest).Pairwise fun a b => a.1 < b.1) :
    (kept ++ e :: rest).lookup e.1 = some e.2 := by
  rw [List.lookup_append, lookup_eq_none_of_ne (ne_of_sorted h).1, lookup_cons_eq_ite, if_pos rfl]
  rfl

theorem lookup_erased_self (h : (kept ++ e :: rest).Pairwise fun a b => a.1 < b.1) :
    (kept ++ rest).lookup e.1 = none := by
  rw [List.lookup_append, lookup_eq_none_of_ne (ne_of_sorted h).1,
    lookup_eq_none_of_ne (ne_of_sorted h).2]
  rfl

theorem lookup_erased_of_ne (kept rest : List (κ × ν)) {e : κ × ν} {k : κ} (hk : k ≠ e.1) :
    (kept ++ rest).lookup k = (kept ++ e :: rest).lookup k := by
  rw [List.lookup_append, List.lookup_append, lookup_cons_eq_ite, if_neg hk]

end Sorted

/-- The entries are the keys with their values. -/
theorem mem_entries_iff (m : OrderedMap κ ν) {k : κ} {v : ν} :
    (k, v) ∈ m.entries ↔ m.get? k = some v := by
  constructor
  · intro h
    obtain ⟨kept, rest, hsplit⟩ := List.append_of_mem h
    have hsorted := m.sorted
    rw [hsplit] at hsorted
    rw [get?, hsplit]
    exact lookup_self_of_sorted hsorted
  · intro h
    obtain ⟨l₁, l₂, hsplit, -⟩ := List.lookup_eq_some_iff.mp h
    rw [hsplit]
    exact List.mem_append_right l₁ List.mem_cons_self

/-- The values stored under one key, as a part of the list of entries. -/
theorem filter_entries (m : OrderedMap κ ν) (k : κ) :
    m.entries.filter (·.1 = k) = ((m.get? k).map (k, ·)).toList := by
  cases hget : m.get? k with
  | none =>
      refine List.filter_eq_nil_iff.mpr fun a ha => ?_
      have hne : a.1 ≠ k := by
        rintro rfl
        rw [m.mem_entries_iff.mp ha] at hget
        cases hget
      simpa using hne
  | some v =>
      obtain ⟨kept, rest, hsplit⟩ := List.append_of_mem (m.mem_entries_iff.mpr hget)
      have hsorted := m.sorted
      rw [hsplit] at hsorted
      obtain ⟨hkept, hrest⟩ := ne_of_sorted hsorted
      have hnil : ∀ {l : List (κ × ν)}, (∀ a ∈ l, a.1 ≠ k) → l.filter (·.1 = k) = [] :=
        fun hl => List.filter_eq_nil_iff.mpr fun a ha => by simpa using hl a ha
      simp [hsplit, hnil hkept, hnil hrest]

/-! ### Iterators -/

/-- Where the iterator `begin()` stands; `none` is `end()`. -/
def begin? (m : OrderedMap κ ν) : Option κ := m.entries.head?.map Prod.fst

/-- Where an iterator at `k` stands after `++`: at the first key above. -/
def next? (m : OrderedMap κ ν) (k : κ) : Option κ :=
  (m.entries.find? fun e => decide (k < e.1)).map Prod.fst

/-- Erase a key. -/
def erase (m : OrderedMap κ ν) (k : κ) : OrderedMap κ ν :=
  ⟨m.entries.filter fun e => decide (e.1 ≠ k), m.sorted.sublist List.filter_sublist⟩

theorem get?_erase (m : OrderedMap κ ν) (k k' : κ) :
    (m.erase k).get? k' = if k' = k then none else m.get? k' := by
  show (m.entries.filter fun e => decide (e.1 ≠ k)).lookup k' = _
  split_ifs with h
  · subst h
    exact lookup_eq_none_of_ne fun a ha => by simpa using (List.mem_filter.mp ha).2
  · show _ = m.entries.lookup k'
    induction m.entries with
    | nil => rfl
    | cons e es ih =>
        by_cases he : e.1 = k
        · rw [List.filter_cons_of_neg (by simpa using he), ih, lookup_cons_eq_ite,
            if_neg (he ▸ h)]
        · rw [List.filter_cons_of_pos (by simpa using he), lookup_cons_eq_ite, lookup_cons_eq_ite,
            ih]

/-- What is written to a key that is erased next does not matter. -/
theorem erase_set (m : OrderedMap κ ν) (k : κ) (v : ν) : (m.set k v).erase k = m.erase k := by
  ext1
  show (setEntry k v m.entries).filter _ = m.entries.filter _
  induction m.entries with
  | nil => simp [setEntry]
  | cons e es ih =>
      unfold setEntry
      split_ifs with hlt heq
      · simp
      · simp [← heq]
      · rw [List.filter_cons, List.filter_cons, ih]

section Split

variable {m : OrderedMap κ ν} {kept rest : List (κ × ν)} {e : κ × ν}
  (h : m.entries = kept ++ e :: rest)

include h

theorem sorted_of_split : (kept ++ e :: rest).Pairwise fun a b => a.1 < b.1 := by
  rw [← h]
  exact m.sorted

/-- An iterator that stands at an entry finds its value. -/
theorem get?_of_split : m.get? e.1 = some e.2 := by
  rw [get?, h]
  exact lookup_self_of_sorted (sorted_of_split h)

/-- The next position is that of the next entry. -/
theorem next?_of_split : m.next? e.1 = rest.head?.map Prod.fst := by
  obtain ⟨-, hrest, hcross⟩ := List.pairwise_append.mp (sorted_of_split h)
  obtain ⟨hhead, -⟩ := List.pairwise_cons.mp hrest
  have hkept : kept.find? (fun a => decide (e.1 < a.1)) = none := by
    refine List.find?_eq_none.mpr fun a ha => ?_
    have hlt := hcross a ha e List.mem_cons_self
    simpa using hlt.le
  rw [next?, h, List.find?_append, hkept, Option.none_or, List.find?_cons_of_neg (by simp)]
  cases rest with
  | nil => rfl
  | cons a rest =>
      have hlt := hhead a List.mem_cons_self
      rw [List.find?_cons_of_pos (by simpa using hlt), List.head?_cons]

/-- Erasing an entry leaves the others. -/
theorem entries_erase_of_split : (m.erase e.1).entries = kept ++ rest := by
  obtain ⟨hkept, hrest⟩ := ne_of_sorted (sorted_of_split h)
  show m.entries.filter _ = _
  rw [h, List.filter_append, List.filter_cons_of_neg (by simp),
    List.filter_eq_self.mpr (by simpa using hkept), List.filter_eq_self.mpr (by simpa using hrest)]

end Split

theorem setEntry_of_sorted {rest : List (κ × ν)} {e : κ × ν} (v : ν) :
    ∀ {kept : List (κ × ν)}, ((kept ++ e :: rest).Pairwise fun a b => a.1 < b.1) →
      setEntry e.1 v (kept ++ e :: rest) = kept ++ (e.1, v) :: rest
  | [], _ => by simp [setEntry]
  | a :: kept, h => by
      obtain ⟨hhead, htail⟩ := List.pairwise_cons.mp h
      have hlt : a.1 < e.1 := hhead e (List.mem_append_right kept List.mem_cons_self)
      rw [List.cons_append, setEntry, if_neg hlt.not_gt, if_neg hlt.ne', setEntry_of_sorted v htail]
      rfl

/-- Writing to a key that is there replaces its value. -/
theorem entries_set_of_split {m : OrderedMap κ ν} {kept rest : List (κ × ν)} {e : κ × ν}
    (h : m.entries = kept ++ e :: rest) (v : ν) :
    (m.set e.1 v).entries = kept ++ (e.1, v) :: rest := by
  show setEntry e.1 v m.entries = _
  rw [h]
  exact setEntry_of_sorted v (sorted_of_split h)

/-! ### Erasing while iterating -/

variable {σ ε : Type}

/-- The loop of a sweep. The iterator stands before `rest`; `kept` are the entries it has passed.
A visit that answers `true` moves the iterator on, one that answers `false` erases the entry. -/
def sweepLoop (visit : σ → κ → ν → Except ε (Bool × σ)) :
    List (κ × ν) → List (κ × ν) → σ → Except ε (List (κ × ν) × σ)
  | kept, [], s => .ok (kept, s)
  | kept, e :: rest, s => do
      let (keep, s) ← visit s e.1 e.2
      if keep then sweepLoop visit (kept ++ [e]) rest s else sweepLoop visit kept rest s

omit [LinearOrder κ] in
/-- A sweep with an entry to come goes on exactly when the visit of the entry succeeds. -/
theorem sweepLoop_cons_eq_ok {visit : σ → κ → ν → Except ε (Bool × σ)}
    {kept rest l : List (κ × ν)} {e : κ × ν} {s s' : σ} :
    sweepLoop visit kept (e :: rest) s = .ok (l, s') ↔
      ∃ keep t, visit s e.1 e.2 = .ok (keep, t) ∧
        sweepLoop visit (if keep then kept ++ [e] else kept) rest t = .ok (l, s') := by
  rw [sweepLoop]
  cases hvisit : visit s e.1 e.2 with
  | error err =>
      constructor
      · intro h
        cases h
      · rintro ⟨keep, t, ht, -⟩
        cases ht
  | ok r =>
      obtain ⟨keep, t⟩ := r
      have hloop : sweepLoop visit (if keep then kept ++ [e] else kept) rest t =
          if keep then sweepLoop visit (kept ++ [e]) rest t else sweepLoop visit kept rest t :=
        apply_ite (sweepLoop visit · rest t) _ _ _
      constructor
      · intro h
        exact ⟨keep, t, rfl, hloop.trans h⟩
      · rintro ⟨keep', t', ht, h⟩
        cases ht
        exact hloop.symm.trans h

omit [LinearOrder κ] in
/-- A sweep removes entries and keeps the order of the others. -/
theorem sublist_of_sweepLoop {visit : σ → κ → ν → Except ε (Bool × σ)} :
    ∀ {kept rest l : List (κ × ν)} {s s' : σ}, sweepLoop visit kept rest s = .ok (l, s') →
      l.Sublist (kept ++ rest)
  | kept, [], l, s, s', h => by
      cases h
      rw [List.append_nil]
  | kept, e :: rest, l, s, s', h => by
      obtain ⟨keep, t, -, hrest⟩ := sweepLoop_cons_eq_ok.mp h
      have hsub := sublist_of_sweepLoop hrest
      cases keep with
      | true => rwa [if_pos rfl, List.append_assoc] at hsub
      | false => exact hsub.trans (List.Sublist.append_left (List.sublist_cons_self e rest) kept)

/-- Visit every entry in key order, threading a state, and erase those whose visit answers
`false`. -/
def sweep (visit : σ → κ → ν → Except ε (Bool × σ)) (m : OrderedMap κ ν) (s : σ) :
    Except ε (OrderedMap κ ν × σ) :=
  match h : sweepLoop visit [] m.entries s with
  | .ok (l, s') => .ok (⟨l, m.sorted.sublist (sublist_of_sweepLoop h)⟩, s')
  | .error e => .error e

/-- A sweep that succeeds is a loop that does. -/
theorem sweepLoop_of_sweep {visit : σ → κ → ν → Except ε (Bool × σ)} {m m' : OrderedMap κ ν}
    {s s' : σ} (h : sweep visit m s = .ok (m', s')) :
    sweepLoop visit [] m.entries s = .ok (m'.entries, s') := by
  unfold sweep at h
  split at h
  case h_1 hloop =>
      cases h
      exact hloop
  case h_2 => cases h

/-- It leaves some of the entries. -/
theorem entries_of_sweep {visit : σ → κ → ν → Except ε (Bool × σ)} {m m' : OrderedMap κ ν}
    {s s' : σ} (h : sweep visit m s = .ok (m', s')) : m'.entries.Sublist m.entries :=
  sublist_of_sweepLoop (sweepLoop_of_sweep h)

omit [LinearOrder κ] in
theorem sweepLoop_state {visit : σ → κ → ν → Except ε (Bool × σ)} {P : σ → Prop}
    (hvisit : ∀ s k v keep s', P s → visit s k v = .ok (keep, s') → P s') :
    ∀ {kept rest l : List (κ × ν)} {s s' : σ}, P s →
      sweepLoop visit kept rest s = .ok (l, s') → P s'
  | kept, [], l, s, s', hs, h => by
      cases h
      exact hs
  | kept, e :: rest, l, s, s', hs, h => by
      obtain ⟨keep, t, hv, hrest⟩ := sweepLoop_cons_eq_ok.mp h
      exact sweepLoop_state hvisit (hvisit s e.1 e.2 keep t hs hv) hrest

/-- What every visit that succeeds keeps of the state, a sweep that succeeds keeps. -/
theorem sweep_state {visit : σ → κ → ν → Except ε (Bool × σ)} {P : σ → Prop}
    (hvisit : ∀ s k v keep s', P s → visit s k v = .ok (keep, s') → P s') {m m' : OrderedMap κ ν}
    {s s' : σ} (h : sweep visit m s = .ok (m', s')) (hs : P s) : P s' :=
  sweepLoop_state hvisit hs (sweepLoop_of_sweep h)

omit [LinearOrder κ] in
/-- A sweep goes through some entries and then through the others. -/
theorem sweepLoop_append_eq_ok {visit : σ → κ → ν → Except ε (Bool × σ)}
    {rest' l : List (κ × ν)} {s' : σ} : ∀ {kept rest : List (κ × ν)} {s : σ},
      sweepLoop visit kept (rest ++ rest') s = .ok (l, s') ↔
        ∃ kept' t, sweepLoop visit kept rest s = .ok (kept', t) ∧
          sweepLoop visit kept' rest' t = .ok (l, s')
  | kept, [], s => by simp [sweepLoop]
  | kept, e :: rest, s => by
      rw [List.cons_append, sweepLoop_cons_eq_ok]
      constructor
      · rintro ⟨keep, t, hv, hloop⟩
        obtain ⟨kept', u, hu, hl⟩ := sweepLoop_append_eq_ok.mp hloop
        exact ⟨kept', u, sweepLoop_cons_eq_ok.mpr ⟨keep, t, hv, hu⟩, hl⟩
      · rintro ⟨kept', u, hu, hl⟩
        obtain ⟨keep, t, hv, hloop⟩ := sweepLoop_cons_eq_ok.mp hu
        exact ⟨keep, t, hv, sweepLoop_append_eq_ok.mpr ⟨kept', u, hloop, hl⟩⟩

section At

variable {τ : Type} {visit : σ → κ → ν → Except ε (Bool × σ)} {P : σ → τ} {k : κ}
  (hother : ∀ s k' v keep s', k' ≠ k → visit s k' v = .ok (keep, s') → P s' = P s)

include hother

/-- Visits of other keys leave a key alone. -/
theorem sweepLoop_of_ne : ∀ {kept rest l : List (κ × ν)} {s s' : σ}, (∀ e ∈ rest, e.1 ≠ k) →
    sweepLoop visit kept rest s = .ok (l, s') → l.lookup k = kept.lookup k ∧ P s' = P s
  | kept, [], l, s, s', _, h => by
      cases h
      exact ⟨rfl, rfl⟩
  | kept, e :: rest, l, s, s', hrest, h => by
      obtain ⟨keep, t, hv, hloop⟩ := sweepLoop_cons_eq_ok.mp h
      have hne : e.1 ≠ k := hrest e List.mem_cons_self
      obtain ⟨hl, hP⟩ := sweepLoop_of_ne (fun a ha => hrest a (List.mem_cons_of_mem e ha)) hloop
      refine ⟨hl.trans ?_, hP.trans (hother s e.1 e.2 keep t hne hv)⟩
      cases keep with
      | true =>
          rw [if_pos rfl, List.lookup_append, lookup_cons_eq_ite, if_neg hne.symm]
          simp
      | false => rfl

/-- What a sweep does to a key that has no entry. -/
theorem sweep_of_get?_none {m m' : OrderedMap κ ν} {s s' : σ} (hget : m.get? k = none)
    (h : sweep visit m s = .ok (m', s')) : m'.get? k = none ∧ P s' = P s := by
  refine sweepLoop_of_ne hother (fun e he hk => ?_) (sweepLoop_of_sweep h)
  subst hk
  rw [m.mem_entries_iff.mp he] at hget
  contradiction

/-- What a sweep does to a key is what the visit of its entry does. -/
theorem sweep_of_get?_some {m m' : OrderedMap κ ν} {s s' : σ} {v : ν} (hget : m.get? k = some v)
    (h : sweep visit m s = .ok (m', s')) :
    ∃ t keep t', visit t k v = .ok (keep, t') ∧ P t = P s ∧ P t' = P s' ∧
      m'.get? k = if keep then some v else none := by
  obtain ⟨before, after, hsplit⟩ := List.append_of_mem (m.mem_entries_iff.mpr hget)
  have hloop := sweepLoop_of_sweep h
  have hsorted := m.sorted
  rw [hsplit] at hloop hsorted
  obtain ⟨hbefore, hafter⟩ := ne_of_sorted hsorted
  obtain ⟨kept, t, hfirst, hrest⟩ := sweepLoop_append_eq_ok.mp hloop
  obtain ⟨keep, t', hv, hlast⟩ := sweepLoop_cons_eq_ok.mp hrest
  obtain ⟨hkept, ht⟩ := sweepLoop_of_ne hother hbefore hfirst
  obtain ⟨hl, ht'⟩ := sweepLoop_of_ne hother hafter hlast
  have hnone : kept.lookup k = none := hkept
  refine ⟨t, keep, t', hv, ht, ht'.symm, hl.trans ?_⟩
  cases keep with
  | true =>
      rw [if_pos rfl, List.lookup_append, hnone, lookup_cons_eq_ite, if_pos rfl]
      rfl
  | false => exact hnone

end At

omit [LinearOrder κ] in
theorem sweepLoop_induction {visit : σ → κ → ν → Except ε (Bool × σ)} {es : List (κ × ν)}
    {I : List (κ × ν) → List (κ × ν) → σ → Prop}
    (hvisit : ∀ kept e rest s, (kept ++ e :: rest).Sublist es → I kept (e :: rest) s →
      ∃ keep s', visit s e.1 e.2 = .ok (keep, s') ∧
        I (if keep then kept ++ [e] else kept) rest s') :
    ∀ (kept rest : List (κ × ν)) (s : σ), (kept ++ rest).Sublist es → I kept rest s →
      ∃ l s', sweepLoop visit kept rest s = .ok (l, s') ∧ I l [] s'
  | kept, [], s, _, h => ⟨kept, s, rfl, h⟩
  | kept, e :: rest, s, hsub, h => by
      obtain ⟨keep, s', hv, hI⟩ := hvisit kept e rest s hsub h
      have hsub' : ((if keep then kept ++ [e] else kept) ++ rest).Sublist es := by
        cases keep with
        | true => rwa [if_pos rfl, List.append_assoc]
        | false => exact (List.Sublist.append_left (List.sublist_cons_self e rest) kept).trans hsub
      obtain ⟨l, t, hloop, hl⟩ := sweepLoop_induction hvisit _ rest s' hsub' hI
      exact ⟨l, t, sweepLoop_cons_eq_ok.mpr ⟨keep, s', hv, hloop⟩, hl⟩

/-- The invariant rule of a sweep. `I kept rest s` relates the entries passed, those to come and
the state; if every visit succeeds and keeps it, the sweep ends with it. -/
theorem sweep_induction (visit : σ → κ → ν → Except ε (Bool × σ)) {m : OrderedMap κ ν}
    {I : List (κ × ν) → List (κ × ν) → σ → Prop} {s : σ} (hinit : I [] m.entries s)
    (hvisit : ∀ kept e rest s, (kept ++ e :: rest).Sublist m.entries → I kept (e :: rest) s →
      ∃ keep s', visit s e.1 e.2 = .ok (keep, s') ∧
        I (if keep then kept ++ [e] else kept) rest s') :
    ∃ m' s', sweep visit m s = .ok (m', s') ∧ I m'.entries [] s' := by
  obtain ⟨l, s', hloop, hI⟩ :=
    sweepLoop_induction hvisit [] m.entries s (List.Sublist.refl _) hinit
  have hsub : l.Sublist m.entries := sublist_of_sweepLoop hloop
  refine ⟨⟨l, m.sorted.sublist hsub⟩, s', ?_, hI⟩
  unfold sweep
  -- the loop of `sweep` is the one that has just been run
  split
  case h_1 l₁ s₁ h₁ =>
      rw [hloop] at h₁
      cases h₁
      rfl
  case h_2 e₁ h₁ =>
      rw [hloop] at h₁
      cases h₁

end OrderedMap

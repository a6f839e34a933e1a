import Mathlib.Data.List.Sort
import Mathlib.Data.List.Nodup

/-! Finite maps keyed by natural numbers, stored as key-sorted association lists.
Traversal in key order is then the order of the stored list, and equality is extensional.
-/

namespace EtcdRaft

-----------------------------------------------------------------------------------------
-- Sorted association lists
-----------------------------------------------------------------------------------------

/-- A finite map from identifiers to values. The stored list is strictly sorted by key, so
a map has one representation only.
-/
structure IdMap (α : Type) where
  entries : List (Nat × α)
  sorted : entries.Pairwise (fun a b => a.1 < b.1)

namespace IdMap

variable {α β : Type}

instance [DecidableEq α] : DecidableEq (IdMap α) := fun a b =>
  decidable_of_iff (a.entries = b.entries)
    ⟨fun h => by cases a; cases b; simp_all, fun h => by rw [h]⟩

def empty : IdMap α := ⟨[], .nil⟩

instance : Inhabited (IdMap α) := ⟨empty⟩

/-- The number of keys, `len(m)`. -/
def size (m : IdMap α) : Nat := m.entries.length

def keys (m : IdMap α) : List Nat := m.entries.map Prod.fst

def get? (m : IdMap α) (id : Nat) : Option α :=
  (m.entries.find? (fun e => e.1 == id)).map Prod.snd

def contains (m : IdMap α) (id : Nat) : Bool := (m.get? id).isSome

def insertEntry (id : Nat) (v : α) : List (Nat × α) → List (Nat × α)
  | [] => [(id, v)]
  | e :: rest =>
      if id < e.1 then
        (id, v) :: e :: rest
      else if id = e.1 then
        (id, v) :: rest
      else
        e :: insertEntry id v rest

theorem mem_insertEntry {id : Nat} {v : α} {l : List (Nat × α)} {e : Nat × α}
    (h : e ∈ insertEntry id v l)
    : e = (id, v) ∨ e ∈ l := by
  induction l with
  | nil => simpa [insertEntry] using h
  | cons head rest ih =>
      unfold insertEntry at h
      split at h
      · simpa using h
      · split at h
        · rcases List.mem_cons.mp h with same | later
          · exact Or.inl same
          · exact Or.inr (by simp [later])
        · rcases List.mem_cons.mp h with same | later
          · exact Or.inr (by simp [same])
          · exact (ih later).imp_right (fun member => by simp [member])

theorem sorted_insertEntry {id : Nat} {v : α} {l : List (Nat × α)}
    (h : l.Pairwise (fun a b => a.1 < b.1))
    : (insertEntry id v l).Pairwise (fun a b => a.1 < b.1) := by
  induction l with
  | nil => simp [insertEntry]
  | cons head rest ih =>
      obtain ⟨above, tail⟩ := List.pairwise_cons.mp h
      unfold insertEntry
      split
      · rename_i below
        refine List.pairwise_cons.mpr ⟨?_, h⟩
        intro e member
        rcases List.mem_cons.mp member with same | later
        · simpa [same] using below
        · exact below.trans (above e later)
      · split
        · rename_i same
          exact List.pairwise_cons.mpr ⟨fun e member => same ▸ above e member, tail⟩
        · rename_i notBelow notSame
          refine List.pairwise_cons.mpr ⟨?_, ih tail⟩
          intro e member
          rcases mem_insertEntry member with same | later
          · rw [same]
            dsimp only
            omega
          · exact above e later

/-- `m[id] = v`. -/
def insert (m : IdMap α) (id : Nat) (v : α) : IdMap α :=
  ⟨insertEntry id v m.entries, sorted_insertEntry m.sorted⟩

/-- `delete(m, id)`. -/
def erase (m : IdMap α) (id : Nat) : IdMap α :=
  ⟨m.entries.filter (fun e => e.1 != id), m.sorted.filter _⟩

/-- Replace every value, keeping the keys. -/
def mapValues (m : IdMap α) (f : Nat → α → β) : IdMap β :=
  ⟨m.entries.map (fun e => (e.1, f e.1 e.2)), by
    simpa only [List.pairwise_map] using m.sorted⟩

def ofList (l : List (Nat × α)) : IdMap α :=
  l.foldl (fun m e => m.insert e.1 e.2) empty

-----------------------------------------------------------------------------------------
-- Lookups after updates
-----------------------------------------------------------------------------------------

@[simp] theorem get?_empty (id : Nat) : (empty : IdMap α).get? id = none := rfl

@[simp] theorem keys_empty : (empty : IdMap α).keys = [] := rfl

theorem find?_insertEntry (id key : Nat) (v : α) (l : List (Nat × α))
    (h : l.Pairwise (fun a b => a.1 < b.1))
    : ((insertEntry id v l).find? (fun e => e.1 == key)).map Prod.snd
      = if key = id then some v
        else (l.find? (fun e => e.1 == key)).map Prod.snd := by
  induction l with
  | nil =>
      by_cases same : key = id
      · simp [insertEntry, same]
      · simp [insertEntry, same, Ne.symm same]
  | cons head rest ih =>
      obtain ⟨above, tail⟩ := List.pairwise_cons.mp h
      unfold insertEntry
      split
      · by_cases same : key = id
        · simp [same]
        · simp [same, Ne.symm same]
      · split
        · rename_i _ same
          by_cases target : key = id
          · simp [target]
          · simp [target, ← same, Ne.symm target]
        · rename_i _ notSame
          by_cases here : head.1 = key
          · have differs : key ≠ id := by omega
            simp [here, differs]
          · have skip : (head.1 == key) = false := by simpa using here
            simp only [List.find?_cons, skip]
            exact ih tail

@[simp] theorem get?_insert (m : IdMap α) (id key : Nat) (v : α)
    : (m.insert id v).get? key = if key = id then some v else m.get? key :=
  find?_insertEntry id key v m.entries m.sorted

@[simp] theorem get?_erase (m : IdMap α) (id key : Nat)
    : (m.erase id).get? key = if key = id then none else m.get? key := by
  unfold get? erase
  by_cases same : key = id
  · subst same
    simp only [if_true, Option.map_eq_none_iff, List.find?_eq_none, List.mem_filter]
    rintro e ⟨_, kept⟩ hit
    simp_all
  · simp only [same, if_false]
    congr 1
    rw [List.find?_filter]
    congr 1
    funext e
    by_cases hit : e.1 = key
    · simp [hit, same]
    · simp [hit]

@[simp] theorem get?_mapValues (m : IdMap α) (f : Nat → α → β) (id : Nat)
    : (m.mapValues f).get? id = (m.get? id).map (f id) := by
  unfold get? mapValues
  dsimp only
  have sameKey : ((fun e : Nat × β => e.1 == id) ∘ fun e : Nat × α => (e.1, f e.1 e.2))
      = fun e => e.1 == id :=
    rfl
  rw [List.find?_map, sameKey]
  cases found : m.entries.find? (fun e => e.1 == id) with
  | none => rfl
  | some e =>
      have key : e.1 = id := by simpa using List.find?_some found
      rw [← key]
      rfl

@[simp] theorem keys_mapValues (m : IdMap α) (f : Nat → α → β)
    : (m.mapValues f).keys = m.keys := by
  simp [keys, mapValues, Function.comp_def]

theorem get?_of_mem {m : IdMap α} {id : Nat} {v : α} (member : (id, v) ∈ m.entries)
    : m.get? id = some v := by
  obtain ⟨l, hs⟩ := m
  unfold get?
  dsimp only at member ⊢
  induction l with
  | nil => simp at member
  | cons head rest ih =>
      obtain ⟨above, tail⟩ := List.pairwise_cons.mp hs
      rcases List.mem_cons.mp member with same | later
      · simp [← same]
      · have below := above _ later
        have skip : (head.1 == id) = false := by
          have : head.1 ≠ id := by
            dsimp only at below
            omega
          simpa using this
        simp only [List.find?_cons, skip]
        exact ih tail later

theorem mem_of_get? {m : IdMap α} {id : Nat} {v : α} (found : m.get? id = some v)
    : (id, v) ∈ m.entries := by
  unfold get? at found
  obtain ⟨e, hit, value⟩ := Option.map_eq_some_iff.mp found
  have key : e.1 = id := by simpa using List.find?_some hit
  have member := List.mem_of_find?_eq_some hit
  rw [← key, ← value]
  exact member

theorem mem_keys {m : IdMap α} {id : Nat} : id ∈ m.keys ↔ ∃ v, m.get? id = some v := by
  constructor
  · intro member
    obtain ⟨e, stored, key⟩ := List.mem_map.mp member
    exact ⟨e.2, key ▸ get?_of_mem stored⟩
  · rintro ⟨v, found⟩
    exact List.mem_map.mpr ⟨(id, v), mem_of_get? found, rfl⟩

theorem contains_iff {m : IdMap α} {id : Nat} : m.contains id = true ↔ id ∈ m.keys := by
  rw [mem_keys, contains, Option.isSome_iff_exists]

theorem sorted_keys (m : IdMap α) : m.keys.Pairwise (· < ·) := by
  unfold keys
  simpa only [List.pairwise_map] using m.sorted

theorem keys_nodup (m : IdMap α) : m.keys.Nodup :=
  m.sorted_keys.imp fun below => Nat.ne_of_lt below

@[simp] theorem length_keys (m : IdMap α) : m.keys.length = m.size := by
  simp [keys, size]

-----------------------------------------------------------------------------------------
-- Membership
-----------------------------------------------------------------------------------------

@[simp] theorem contains_empty (id : Nat) : (empty : IdMap α).contains id = false := rfl

@[simp] theorem contains_insert (m : IdMap α) (id key : Nat) (v : α)
    : (m.insert id v).contains key = (decide (key = id) || m.contains key) := by
  by_cases same : key = id <;> simp [contains, same]

@[simp] theorem contains_erase (m : IdMap α) (id key : Nat)
    : (m.erase id).contains key = (!decide (key = id) && m.contains key) := by
  by_cases same : key = id <;> simp [contains, same]

/-- A map without members has no entries. -/
theorem size_eq_zero {m : IdMap α} : m.size = 0 ↔ ∀ id, m.contains id = false := by
  rw [← length_keys, List.length_eq_zero_iff, List.eq_nil_iff_forall_not_mem]
  simp only [← contains_iff, Bool.not_eq_true]

theorem size_ne_zero {m : IdMap α} : m.size ≠ 0 ↔ ∃ id, m.contains id = true := by
  rw [ne_eq, size_eq_zero]
  simp

/-- Maps with the same values at all keys are equal. -/
theorem ext_get? {m m' : IdMap α} (same : ∀ id, m.get? id = m'.get? id) : m = m' := by
  have strict : ∀ m : IdMap α, m.entries.Nodup := fun m =>
    m.sorted.imp fun below eq => absurd (congrArg Prod.fst eq) (Nat.ne_of_lt below)
  have members : ∀ e, e ∈ m.entries ↔ e ∈ m'.entries := by
    intro e
    constructor
    · intro member
      exact mem_of_get? ((same e.1).symm.trans (get?_of_mem member))
    · intro member
      exact mem_of_get? ((same e.1).trans (get?_of_mem member))
  have perm := (List.perm_ext_iff_of_nodup (strict m) (strict m')).mpr members
  have eq : m.entries = m'.entries :=
    perm.eq_of_pairwise (fun a b _ _ below above => absurd (below.trans above) (Nat.lt_irrefl _))
      m.sorted m'.sorted
  cases m
  cases m'
  cases eq
  rfl

/-- Sets with the same members are equal. -/
theorem ext_contains {m m' : IdMap Unit} (same : ∀ id, m.contains id = m'.contains id)
    : m = m' := by
  refine ext_get? fun id => ?_
  have := same id
  unfold contains at this
  cases left : m.get? id with
  | none =>
      rw [left] at this
      exact (Option.not_isSome_iff_eq_none.mp (by simp [← this])).symm
  | some u =>
      rw [left] at this
      obtain ⟨u', right⟩ := Option.isSome_iff_exists.mp this.symm
      rw [right]

end IdMap

end EtcdRaft

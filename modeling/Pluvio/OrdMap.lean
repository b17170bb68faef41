import Mathlib.Data.List.Nodup
import Mathlib.Order.Lattice

/-!
# Maps with ordered keys

A map whose keys are in order, as the list of its entries. The order is a field, so
a map is at once a list without a repeated key, a prefix of it up to a key is a
filter, and two maps with the same entries are the same list.
-/

namespace Pluvio

/-- A map with ordered keys. -/
structure OrdMap (κ ν : Type*) [LinearOrder κ] where
  /-- The entries, by increasing key. -/
  entries : List (κ × ν)
  sorted : entries.Pairwise fun a b => a.1 < b.1

namespace OrdMap

variable {κ ν : Type*} [LinearOrder κ]

/-- The map of no entry. -/
def empty : OrdMap κ ν := ⟨[], .nil⟩

def isEmpty (m : OrdMap κ ν) : Bool := m.entries.isEmpty

def len (m : OrdMap κ ν) : ℕ := m.entries.length

/-- The entry with the least key. -/
def firstKeyValue (m : OrdMap κ ν) : Option (κ × ν) := m.entries.head?

def get (m : OrdMap κ ν) (k : κ) : Option ν := (m.entries.find? (·.1 = k)).map (·.2)

/-- Put a value under a key, in the place of the one that is there. -/
def insert (m : OrdMap κ ν) (k : κ) (v : ν) : OrdMap κ ν where
  entries := m.entries.filter (·.1 < k) ++ (k, v) :: m.entries.filter (k < ·.1)
  sorted := by
    rw [List.pairwise_append, List.pairwise_cons]
    refine ⟨m.sorted.filter _, ⟨fun b hb => ?_, m.sorted.filter _⟩, fun a ha b hb => ?_⟩
    · exact of_decide_eq_true (List.mem_filter.mp hb).2
    · have hak : a.1 < k := of_decide_eq_true (List.mem_filter.mp ha).2
      rcases List.mem_cons.mp hb with rfl | hb
      · exact hak
      · exact hak.trans (of_decide_eq_true (List.mem_filter.mp hb).2)

/-- The map without a key. -/
def remove (m : OrdMap κ ν) (k : κ) : OrdMap κ ν where
  entries := m.entries.filter (·.1 ≠ k)
  sorted := m.sorted.filter _

/-- The entries up to a key. -/
def rangeTo (m : OrdMap κ ν) (k : κ) : List (κ × ν) := m.entries.filter (·.1 ≤ k)

section Facts

variable {m m' : OrdMap κ ν} {k : κ} {v : ν}

/-- **A map is what it holds.** -/
theorem eq_of_perm (h : m.entries.Perm m'.entries) : m = m' := by
  obtain ⟨l, hl⟩ := m
  obtain ⟨l', hl'⟩ := m'
  obtain rfl : l = l' :=
    h.eq_of_pairwise (fun _ _ _ _ hab hba => absurd (hab.trans hba) (lt_irrefl _)) hl hl'
  rfl

/-- No key is there twice. -/
theorem nodup_keys (m : OrdMap κ ν) : (m.entries.map (·.1)).Nodup :=
  List.pairwise_map.mpr (m.sorted.imp ne_of_lt)

/-- A key has one value. -/
theorem value_unique {e e' : κ × ν} (he : e ∈ m.entries) (he' : e' ∈ m.entries)
    (h : e.1 = e'.1) : e = e' :=
  List.inj_on_of_nodup_map m.nodup_keys he he' h

theorem get_eq_some_iff : m.get k = some v ↔ (k, v) ∈ m.entries := by
  unfold get
  rw [Option.map_eq_some_iff]
  constructor
  · rintro ⟨⟨k', v'⟩, hfind, rfl⟩
    obtain rfl : k' = k := by simpa using List.find?_some hfind
    exact List.mem_of_find?_eq_some hfind
  · intro hmem
    have hsome : (m.entries.find? (·.1 = k)).isSome :=
      List.find?_isSome.mpr ⟨(k, v), hmem, by simp⟩
    obtain ⟨e, he⟩ := Option.isSome_iff_exists.mp hsome
    have hk : e.1 = k := by simpa using List.find?_some he
    exact ⟨e, he, congrArg Prod.snd (value_unique (List.mem_of_find?_eq_some he) hmem hk)⟩

theorem isSome_get_iff : (m.get k).isSome = true ↔ k ∈ m.entries.map (·.1) := by
  rw [Option.isSome_iff_exists, List.mem_map]
  constructor
  · rintro ⟨v, hv⟩
    exact ⟨(k, v), get_eq_some_iff.mp hv, rfl⟩
  · rintro ⟨⟨k', v⟩, hmem, rfl⟩
    exact ⟨v, get_eq_some_iff.mpr hmem⟩

theorem mem_insert {e : κ × ν} :
    e ∈ (m.insert k v).entries ↔ e = (k, v) ∨ e ∈ m.entries ∧ e.1 ≠ k := by
  simp only [insert, List.mem_append, List.mem_cons, List.mem_filter, decide_eq_true_eq]
  have hne : e.1 ≠ k ↔ e.1 < k ∨ k < e.1 := ne_iff_lt_or_gt
  rw [hne]
  tauto

/-- **A new key** adds an entry. -/
theorem insert_perm (h : k ∉ m.entries.map (·.1)) :
    (m.insert k v).entries.Perm ((k, v) :: m.entries) := by
  have hnot : m.entries.filter (k < ·.1) = m.entries.filter fun e => !decide (e.1 < k) := by
    refine List.filter_congr fun e he => ?_
    have hne : e.1 ≠ k := fun hc => h (hc ▸ List.mem_map_of_mem he)
    rcases lt_or_gt_of_ne hne with hlt | hgt
    · simp [hlt, hlt.not_gt]
    · simp [hgt, hgt.not_gt]
  have hinsert : (m.insert k v).entries =
      m.entries.filter (·.1 < k) ++ (k, v) :: m.entries.filter (k < ·.1) := rfl
  rw [hinsert, hnot]
  exact List.perm_middle.trans ((List.filter_append_perm _ _).cons _)

/-- The least key goes first. -/
theorem remove_first {e : κ × ν} {l : List (κ × ν)} (h : m.entries = e :: l) :
    m.get e.1 = some e.2 ∧ (m.remove e.1).entries = l := by
  refine ⟨get_eq_some_iff.mpr (h ▸ List.mem_cons_self), ?_⟩
  have hs := m.sorted
  rw [h, List.pairwise_cons] at hs
  have hremove : (m.remove e.1).entries = m.entries.filter (·.1 ≠ e.1) := rfl
  rw [hremove, h, List.filter_cons_of_neg (by simp), List.filter_eq_self]
  exact fun b hb => by simpa using (hs.1 b hb).ne'

/-- Nothing is taken out under a key that is not there. -/
theorem remove_eq_self (h : k ∉ m.entries.map (·.1)) : m.remove k = m := by
  refine eq_of_perm (List.Perm.of_eq (List.filter_eq_self.mpr fun e he => ?_))
  exact decide_eq_true fun hc => h (hc ▸ List.mem_map_of_mem he)

/-- A key that is there is one entry. -/
theorem len_remove (h : k ∈ m.entries.map (·.1)) : (m.remove k).len + 1 = m.len := by
  obtain ⟨e, he, rfl⟩ := List.mem_map.mp h
  have hone : m.entries.filter (fun a => !decide (a.1 ≠ e.1)) = [e] := by
    have hperm : (m.entries.filter (fun a => !decide (a.1 ≠ e.1))).Perm [e] := by
      refine (List.perm_ext_iff_of_nodup ?_ (List.nodup_singleton e)).mpr fun a => ?_
      · exact (List.Nodup.of_map _ m.nodup_keys).filter _
      · simp only [List.mem_filter, ne_eq, decide_not, Bool.not_not, decide_eq_true_eq,
          List.mem_singleton]
        exact ⟨fun ⟨ha, hk⟩ => value_unique ha he hk, fun ha => ⟨ha ▸ he, congrArg _ ha⟩⟩
    exact List.perm_singleton.mp hperm
  have hperm := (List.filter_append_perm (fun a : κ × ν => decide (a.1 ≠ e.1)) m.entries).length_eq
  rw [hone, List.length_append] at hperm
  exact hperm

/-- **A map in two parts**, below a key and above it. -/
theorem rangeTo_append (m : OrdMap κ ν) (k : κ) :
    m.rangeTo k ++ m.entries.filter (k < ·.1) = m.entries := by
  have hnot : m.entries.filter (k < ·.1) = m.entries.filter fun e => !decide (e.1 ≤ k) :=
    List.filter_congr fun e _ => by simp [← not_le]
  refine List.Perm.eq_of_pairwise
    (fun a b _ _ (hab : a.1 < b.1) (hba : b.1 < a.1) => absurd (hab.trans hba) (lt_irrefl _))
    ?_ m.sorted ?_
  · rw [List.pairwise_append]
    refine ⟨m.sorted.filter _, m.sorted.filter _, fun a ha b hb => ?_⟩
    have ha' : a.1 ≤ k := of_decide_eq_true (List.mem_filter.mp ha).2
    exact ha'.trans_lt (of_decide_eq_true (List.mem_filter.mp hb).2)
  · rw [hnot]
    exact List.filter_append_perm _ _

/-- Nothing is below a key that is below the first one. -/
theorem rangeTo_eq_nil {e : κ × ν} (h : m.firstKeyValue = some e) (hk : k < e.1) :
    m.rangeTo k = [] := by
  obtain ⟨l, hl⟩ := List.head?_eq_some_iff.mp h
  have hs := m.sorted
  rw [hl, List.pairwise_cons] at hs
  rw [rangeTo, List.filter_eq_nil_iff, hl]
  intro a ha
  rcases List.mem_cons.mp ha with rfl | ha
  · simpa using hk
  · simpa using hk.trans (hs.1 a ha)

end Facts

end OrdMap

end Pluvio

import SightingDB.KeyGossip

/-!
All the keys of one server handed to another. A key travels as the subtrees it may read, the
subtrees it may write and a flag, and is put together again on the other side; what it may do
stays the same.
-/
namespace SightingDB

/-! ## One key -/

/-- Whether a list of grants permits something below a namespace. -/
def permits (grants : List Grant) (permitted : Grant → Bool) (name : String) : Bool :=
  grants.any fun grant => permitted grant && grant.covers name

namespace KeyEntry

variable (entry : KeyEntry) (key : String) (grants : List Grant) (name : String)

theorem permits_read : permits entry.toGrants (·.read) name = entry.read.any fun root => (segments root).isPrefixOf (segments name) := by
  rw [permits, toGrants, List.any_append, List.any_append, List.any_map, List.any_map]
  cases entry.admin <;> simp [Function.comp_def, Grant.covers, Grant.adminOnly]

theorem permits_write : permits entry.toGrants (·.write) name = entry.write.any fun root => (segments root).isPrefixOf (segments name) := by
  rw [Bool.eq_iff_iff, permits, List.any_eq_true, List.any_eq_true]
  constructor
  · rintro ⟨grant, member, allowed⟩
    obtain ⟨writes, covers⟩ := Bool.and_eq_true_iff.mp allowed
    simp only [toGrants, List.mem_append, List.mem_map, List.mem_filter] at member
    rcases member with (⟨root, -, rfl⟩ | ⟨root, ⟨here, -⟩, rfl⟩) | admin
    · exact ⟨root, of_decide_eq_true writes, covers⟩
    · exact ⟨root, here, covers⟩
    · split_ifs at admin
      · obtain rfl := List.mem_singleton.mp admin
        cases writes
      · cases admin
  · rintro ⟨root, here, covers⟩
    by_cases both : root ∈ entry.read
    · refine ⟨⟨root, true, decide (root ∈ entry.write), false, .inr ⟨rfl, .inl rfl⟩⟩, ?_, ?_⟩
      · exact List.mem_append_left _ (List.mem_append_left _ (List.mem_map.mpr ⟨root, both, rfl⟩))
      · exact Bool.and_eq_true_iff.mpr ⟨decide_eq_true here, covers⟩
    · refine ⟨⟨root, false, true, false, .inr ⟨rfl, .inr rfl⟩⟩, ?_, ?_⟩
      · refine List.mem_append_left _ (List.mem_append_right _ (List.mem_map.mpr ⟨root, ?_, rfl⟩))
        exact List.mem_filter.mpr ⟨here, decide_eq_true both⟩
      · exact Bool.and_eq_true_iff.mpr ⟨rfl, covers⟩

/-- A key that has travelled may read what it could read. -/
theorem permits_read_copied : permits (copied key grants) (·.read) name = permits grants (·.read) name := by
  rw [copied, permits_read, fromGrants, List.any_map, List.any_filter]
  rfl

theorem permits_write_copied : permits (copied key grants) (·.write) name = permits grants (·.write) name := by
  rw [copied, permits_write, fromGrants, List.any_map, List.any_filter]
  rfl

theorem admin_copied : (copied key grants).any (·.admin) = grants.any (·.admin) := by
  rw [copied, any_admin]
  rfl

end KeyEntry

/-! ## All the keys -/

namespace Acl

/-- What is sent of an ACL: every key, each as an entry. -/
def offered (acl : Acl) : List KeyEntry := acl.keys.entries.map fun held => .fromGrants held.1 held.2

/-- The ACL on the other side. -/
def transferred (acl : Acl) : Acl := acl.offered.foldl (fun acl entry => acl.set entry.key entry.toGrants) ⟨∅⟩

variable (acl : Acl) (key : String)

theorem get_transferred : acl.transferred.keys.get key = (acl.keys.get key).map (copied key) := by
  have fold : ∀ (l : List (String × List Grant)) (start : Acl),
      ((l.map fun held => KeyEntry.fromGrants held.1 held.2).foldl (fun acl entry => acl.set entry.key entry.toGrants) start).keys =
        (l.map fun held => (held.1, copied held.1 held.2)).foldl (fun m e => m.insert e.1 e.2) start.keys := by
    intro l
    induction l with
    | nil => exact fun start => rfl
    | cons held rest ih => exact fun start => ih _
  have whole : (acl.keys.entries.map fun held => (held.1, copied held.1 held.2)) =
      (acl.keys.mapValues fun key grants => copied key grants).entries := rfl
  rw [transferred, offered, fold, whole]
  refine (congrArg (OrderedMap.get · key) (OrderedMap.foldl_insert_entries _)).trans ?_
  rw [OrderedMap.get_mapValues]

theorem allows_eq_permits (name : String) (permitted : Grant → Bool) :
    acl.allows key name permitted = (acl.keys.get key).elim false (permits · permitted name) := by
  rw [allows]
  cases acl.keys.get key <;> rfl

theorem canRead_transferred (name : String) : acl.transferred.canRead key name = acl.canRead key name := by
  rw [canRead, canRead, allows_eq_permits, allows_eq_permits, get_transferred]
  cases acl.keys.get key with
  | none => rfl
  | some grants => exact KeyEntry.permits_read_copied key grants name

theorem canWrite_transferred (name : String) : acl.transferred.canWrite key name = acl.canWrite key name := by
  rw [canWrite, canWrite, allows_eq_permits, allows_eq_permits, get_transferred]
  cases acl.keys.get key with
  | none => rfl
  | some grants => exact KeyEntry.permits_write_copied key grants name

theorem isAdmin_transferred : acl.transferred.isAdmin key = acl.isAdmin key := by
  rw [isAdmin, isAdmin, get_transferred]
  cases acl.keys.get key with
  | none => rfl
  | some grants => exact KeyEntry.admin_copied key grants

theorem transferred_transferred : acl.transferred.transferred = acl.transferred := by
  have same : acl.transferred.transferred.keys = acl.transferred.keys := OrderedMap.ext_get fun key => by
    rw [get_transferred, get_transferred, Option.map_map]
    exact congrArg (Option.map · _) (funext fun grants => copied_copied key grants)
  exact congrArg Acl.mk same

/-- An ACL that has been handed over answers every question as the one it came from, and a
second transfer changes no grant any more. Both ways of receiving keys give these grants: the
whole list at once, and one key put next to the others. -/
theorem transfer_keeps :
    (∀ key, acl.transferred.isAdmin key = acl.isAdmin key ∧
      ∀ name, acl.transferred.canRead key name = acl.canRead key name ∧
        acl.transferred.canWrite key name = acl.canWrite key name) ∧
    acl.transferred.transferred = acl.transferred ∧
    (∀ caller acl', replaceKeys true caller acl.offered = .ok acl' → acl' = acl.transferred) ∧
    ∀ other entry acl', entry ∈ acl.offered → saveKey other entry = .ok acl' →
      acl'.keys.get entry.key = acl.transferred.keys.get entry.key ∧
      ∀ key, key ≠ entry.key → acl'.keys.get key = other.keys.get key := by
  refine ⟨fun key => ⟨acl.isAdmin_transferred key, fun name => ⟨acl.canRead_transferred key name, acl.canWrite_transferred key name⟩⟩,
    acl.transferred_transferred, fun caller acl' replaced => ?_, fun other entry acl' member saved => ?_⟩
  · obtain ⟨-, rfl, -⟩ := replaceKeys_eq replaced
    rfl
  · obtain ⟨-, rfl, -⟩ := saveKey_eq saved
    obtain ⟨⟨key, grants⟩, held, rfl⟩ := List.mem_map.mp member
    refine ⟨?_, fun key' different => OrderedMap.get_insert_of_ne _ _ different⟩
    rw [get_transferred]
    refine (OrderedMap.get_insert_self _ _ _).trans ?_
    rw [show acl.keys.get (KeyEntry.fromGrants key grants).key = some grants from OrderedMap.mem_entries.mp held]
    rfl

theorem transfer_keeps_rights : ∃ acl', replaceKeys true "root" (offered
      ⟨(∅ : OrderedMap String (List Grant)).insert "root" [⟨"feeds", true, false, false, .inr ⟨rfl, .inl rfl⟩⟩,
        .allData, .adminOnly, ⟨"feeds", false, true, false, .inr ⟨rfl, .inr rfl⟩⟩]⟩) = .ok acl' ∧
    acl'.keys.get "root" = some [⟨"feeds", true, true, false, .inr ⟨rfl, .inl rfl⟩⟩, .allData, .adminOnly] ∧
    acl'.canWrite "root" "feeds/misp" = true ∧ acl'.isAdmin "root" = true := by
  let acl : Acl := ⟨(∅ : OrderedMap String (List Grant)).insert "root" [⟨"feeds", true, false, false, .inr ⟨rfl, .inl rfl⟩⟩,
    .allData, .adminOnly, ⟨"feeds", false, true, false, .inr ⟨rfl, .inr rfl⟩⟩]⟩
  obtain ⟨acl', replaced⟩ : ∃ acl', replaceKeys true "root" acl.offered = .ok acl' := ⟨acl.transferred, by decide⟩
  obtain rfl := (transfer_keeps acl).2.2.1 "root" acl' replaced
  have rights := (transfer_keeps acl).1 "root"
  refine ⟨acl.transferred, replaced, by decide, (rights.2 "feeds/misp").2.trans (by decide), rights.1.trans (by decide)⟩

end Acl

end SightingDB

import StrataKV.Mvcc.Exec

/-!
# Reads of one key

`Get` looks at one key's records, so it is a function of the key's view. The lemmas say when the
lock blocks a read and which record a read stops at, as statements about lookups.
-/

namespace StrataKV.Mvcc

open Std (ExtTreeMap)

namespace Versions

variable {versions : Versions} {readTs c : Ts} {w : MvccWrite}

lemma visible_eq_find? (versions : Versions) (readTs : Ts) :
    versions.visible readTs = versions.toList.reverse.find? fun item =>
      item.1 ≤ readTs && (item.2.IsValue : Bool) := by
  rw [visible, ← List.filter_reverse, List.find?_filter]
  congr! 2 with item
  rw [Bool.eq_iff_iff]
  simp only [Bool.and_eq_true, decide_eq_true_eq, MvccWrite.isValue_iff]

/-- A read stops at the newest Put or Delete that is not after it. -/
lemma visible_eq_some : versions.visible readTs = some (c, w) ↔
    versions[c]? = some w ∧ c ≤ readTs ∧ w.IsValue ∧
      ∀ (c' : Ts) (w' : MvccWrite), versions[c']? = some w' → w'.IsValue → c' ≤ readTs → c' ≤ c := by
  rw [visible_eq_find?, OrdMap.find?_reverse_toList_eq_some]
  simp only [Bool.and_eq_true, decide_eq_true_eq, and_imp, and_assoc]
  exact and_congr_right fun _ => and_congr_right fun _ => and_congr_right fun _ =>
    ⟨fun h c' w' hg hv hle => h c' w' hg hle hv, fun h c' w' hg hle hv => h c' w' hg hv hle⟩

lemma visible_eq_none : versions.visible readTs = none ↔
    ∀ (c : Ts) (w : MvccWrite), versions[c]? = some w → w.IsValue → ¬c ≤ readTs := by
  rw [visible_eq_find?, OrdMap.find?_reverse_toList_eq_none]
  simp only [Bool.and_eq_false_iff, decide_eq_false_iff_not]
  exact ⟨fun h c w hg hv => (h c w hg).resolve_right (not_not.2 hv),
    fun h c w hg => (em w.IsValue).elim (fun hv => .inl (h c w hg hv)) .inr⟩

end Versions

namespace KeyView

variable {v : KeyView} {readTs : Ts}

/-- The lock blocks a read at `readTs`: it is not newer, and its transaction has no record yet. -/
def Blocked (v : KeyView) (readTs : Ts) : Prop :=
  ∃ lock, v.lock = some lock ∧ lock.startTs ≤ readTs ∧
    ∀ (c : Ts) (w : MvccWrite), v.versions[c]? = some w → w.startTs ≠ lock.startTs

/-- The answer of a read that no lock blocks. -/
def read (v : KeyView) (readTs : Ts) : TxnStatus × Option Bytes :=
  match v.versions.visible readTs with
  | none => (.notFound, none)
  | some (_, write) =>
    if write.type = .delete then (.notFound, none)
    else match v.data write.startTs with
      | some value => (.ok, some value)
      | none => (.storageError, none)

lemma read_eq_storageError (h : (v.read readTs).1 = .storageError) :
    ∃ (c : Ts) (w : MvccWrite), v.versions[c]? = some w ∧ w.type = .put ∧
      v.data w.startTs = none := by
  unfold read at h
  split at h
  · cases h
  rename_i c write hvisible
  obtain ⟨hget, -, hvalue, -⟩ := Versions.visible_eq_some.1 hvisible
  split_ifs at h with hdelete
  split at h
  · cases h
  · rename_i hdata
    exact ⟨c, write, hget, hvalue.resolve_right hdelete, hdata⟩

end KeyView

/-- `Get` reports a lock conflict or reads the key's committed records. -/
lemma MvccStorage.get_cases (σ : MvccStorage) (key : Bytes) (readTs : Ts) :
    ((σ.view key).Blocked readTs ∧ σ.get key readTs = (.lockConflict, none)) ∨
      (¬(σ.view key).Blocked readTs ∧ σ.get key readTs = (σ.view key).read readTs) := by
  unfold MvccStorage.get
  cases hlock : σ.locks[key]? with
  | none =>
    right
    refine ⟨?_, if_neg Bool.false_ne_true⟩
    simp [KeyView.Blocked, view, hlock]
  | some lock =>
    have hblocked : (lock.startTs ≤ readTs &&
        ((σ.versionsOf key).recordOf lock.startTs).isNone) = true ↔ (σ.view key).Blocked readTs := by
      simp only [Bool.and_eq_true, decide_eq_true_eq, Option.isNone_iff_eq_none,
        Versions.recordOf_eq_none, KeyView.Blocked, view, hlock, Option.some.injEq, exists_eq_left']
    by_cases h : (σ.view key).Blocked readTs
    · exact .inl ⟨h, if_pos (hblocked.2 h)⟩
    · exact .inr ⟨h, if_neg fun hb => h (hblocked.1 hb)⟩

end StrataKV.Mvcc

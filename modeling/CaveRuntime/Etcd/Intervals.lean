import CaveRuntime.Common.Utf8

/-!
# The etcd-compatible store: permissions for a prefix

Model of `PermInterval` of `cave-etcd/src/auth_v3.rs`. `covers_prefix` asks that the first key of the
interval starts with the prefix, and that the end is greater than the prefix. Keys that start with the
prefix lie before the first key if that is longer, and after the end if the end starts with the prefix too.
-/

namespace Etcd
open Utf8

inductive PermKind where
  | read
  | write
  | readWrite
deriving DecidableEq, Repr

structure PermInterval where
  key : Bytes
  keyEnd : Option Bytes
  kind : PermKind
deriving DecidableEq, Repr

namespace PermInterval

/-- `PermInterval::matches`. -/
def matchesKey (i : PermInterval) (key : Bytes) : Bool :=
  match i.keyEnd with
  | none => key = i.key
  | some keyEnd => if i.key = [0] ∧ keyEnd = [0] then true else i.key ≤ key && key < keyEnd

def coversPrefix (i : PermInterval) (p : Bytes) : Bool :=
  let keyMatch := p.isPrefixOf i.key
  let endAfterPrefix := (i.keyEnd.map fun e => decide (p < e)).getD false
  keyMatch && endAfterPrefix

/-- Every key that starts with the prefix is before `e` if `e` is greater and does not start with it. -/
lemma append_lt {p e : Bytes} (lt : p < e) (no : ¬ p <+: e) (s : Bytes) : p ++ s < e := by
  induction p generalizing e with
  | nil => exact absurd List.nil_prefix no
  | cons b p ih =>
    cases e with
    | nil => exact absurd lt (List.not_lt_nil _)
    | cons c e =>
      rw [List.cons_append]
      rcases List.cons_lt_cons_iff.mp lt with less | ⟨rfl, less⟩
      · exact List.cons_lt_cons_iff.mpr (.inl less)
      · refine List.cons_lt_cons_iff.mpr (.inr ⟨rfl, ih less fun pre => no ?_⟩)
        exact List.cons_prefix_cons.mpr ⟨rfl, pre⟩

lemma le_append (p s : Bytes) : p ≤ p ++ s := by
  induction p with
  | nil => exact List.nil_le _
  | cons b p ih => exact List.cons_le_cons_iff.mpr (.inr ⟨rfl, ih⟩)

/-- The interval is the one for all keys, or starts with the prefix itself and ends after all keys that
start with it; unless the prefix is not one of the first key, or the end is not greater. -/
def Whole (i : PermInterval) (p : Bytes) : Prop :=
  ∀ e, i.keyEnd = some e → p <+: i.key → p < e →
    i.key = [0] ∧ e = [0] ∨ i.key = p ∧ ¬ p <+: e

/-- An interval that covers a prefix matches the keys that start with it exactly if it is whole. -/
theorem coversPrefix_sound_iff (i : PermInterval) (p : Bytes) :
    (i.coversPrefix p = true → ∀ key, p <+: key → i.matchesKey key = true) ↔ i.Whole p := by
  constructor
  · intro sound e hasEnd pre after
    have covers : i.coversPrefix p = true := by simp [coversPrefix, hasEnd, pre, after]
    have hits (key : Bytes) (start : p <+: key) :
        i.key = [0] ∧ e = [0] ∨ i.key ≤ key ∧ key < e := by
      simpa [matchesKey, hasEnd] using sound covers key start
    rcases hits p (List.prefix_refl p) with all | ⟨le, -⟩
    · exact .inl all
    -- the prefix and the end itself are keys that start with the prefix
    obtain ⟨s, eq⟩ := pre
    have same : i.key = p := List.le_antisymm le (eq ▸ le_append p s)
    by_cases more : p <+: e
    · rcases hits e more with all | ⟨-, lt⟩
      · exact .inl all
      · exact absurd lt (List.lt_irrefl e)
    · exact .inr ⟨same, more⟩
  · rintro whole covers key ⟨s, rfl⟩
    unfold coversPrefix at covers
    unfold matchesKey
    cases hasEnd : i.keyEnd with
    | none => simp [hasEnd] at covers
    | some e =>
      obtain ⟨pre, after⟩ : p <+: i.key ∧ p < e := by simpa [hasEnd] using covers
      rcases whole e hasEnd pre after with all | ⟨same, no⟩
      · simp [all]
      · simp [same, le_append, append_lt after no]

/-- A permission from "a/x" on covers the prefix "a/" and not the key "a/b"; and one up to "a/x" does not
match "a/y". -/
theorem coversPrefix_unsound :
    (coversPrefix ⟨[97, 47, 120], some [98], .read⟩ [97, 47] = true ∧ [97, 47] <+: [97, 47, 98] ∧
      matchesKey ⟨[97, 47, 120], some [98], .read⟩ [97, 47, 98] = false) ∧
    coversPrefix ⟨[97, 47], some [97, 47, 120], .read⟩ [97, 47] = true ∧ [97, 47] <+: [97, 47, 121] ∧
      matchesKey ⟨[97, 47], some [97, 47, 120], .read⟩ [97, 47, 121] = false := by
  decide

end PermInterval

end Etcd

import ScriptFront.Proofs.Types.Casts
import ScriptFront.Proofs.Types.Overload

/-! Strings in the place of `u64`. Main statement: below the feature level at which strings have
casts of their own, a string and `u64` can stand for each other in every cast and every call, and
at every level a string is cast to the other types as a `u64` is. Only a type and its equal are
told apart, by the priorities 0 and 1. -/
namespace ScriptFront

namespace TypeId

/-- The second type may stand where the first one stood. -/
inductive Replaces : TypeId → TypeId → Prop
  | same (a : TypeId) : Replaces a a
  | stringByWord : Replaces .string .u64
  | wordByString : Replaces .u64 .string

theorem Replaces.symm {a b : TypeId} (h : Replaces a b) : Replaces b a := by
  cases h with
  | same => exact .same a
  | stringByWord => exact .wordByString
  | wordByString => exact .stringByWord

end TypeId

namespace Cast

/-- The casts do the same, and their priorities differ at most between 0 and 1. -/
structure Alike (c d : Cast) : Prop where
  kind : c.kind = d.kind
  priority : c.priority = d.priority ∨ c.priority ≤ 1 ∧ d.priority ≤ 1

namespace Alike

variable {c d e : Cast}

theorem refl (c : Cast) : c.Alike c := ⟨rfl, .inl rfl⟩

theorem symm (h : c.Alike d) : d.Alike c := by
  obtain ⟨hkind, hpriority⟩ := h
  refine ⟨hkind.symm, ?_⟩
  omega

theorem trans (h : c.Alike d) (h' : d.Alike e) : c.Alike e := by
  obtain ⟨hkind, hpriority⟩ := h
  obtain ⟨hkind', hpriority'⟩ := h'
  refine ⟨hkind.trans hkind', ?_⟩
  omega

theorem isValid_eq (h : c.Alike d) : c.isValid = d.isValid := by
  rw [isValid, isValid, h.kind]

end Alike
end Cast

namespace CastRules

variable {hash : NameHash} {r : CastRules hash} {a a' b b' : TypeId} {explicit : Bool}

/-- The cast between two types as they are read. Where these are one, the value is used as it is. -/
def castRead (r : CastRules hash) (source target : TypeId) (explicit : Bool) : Cast :=
  if source = target then ⟨.noCast, 1⟩
  else if target = .any then ⟨.any, Cast.anyPriority⟩
  else
    match r.types.get? source, r.types.get? target with
    | some source, some target => between source target explicit
    | _, _ => .invalid

theorem cast_of_ne (h : a ≠ b) :
    r.cast a b explicit = r.castRead (sourceType a) (r.targetType b) explicit := if_neg h

/-- Up to the priorities 0 and 1 a cast is told by what its types are read as, provided that a
type is read as one and the same on both sides. -/
theorem cast_alike_castRead (h : a = b → sourceType a = r.targetType b) :
    (r.cast a b explicit).Alike (r.castRead (sourceType a) (r.targetType b) explicit) := by
  by_cases hab : a = b
  · have hcast : r.cast a b explicit = ⟨.noCast, 0⟩ := if_pos hab
    have hread : r.castRead (sourceType a) (r.targetType b) explicit = ⟨.noCast, 1⟩ :=
      if_pos (h hab)
    rw [hcast, hread]
    exact ⟨rfl, .inr ⟨Nat.zero_le 1, le_rfl⟩⟩
  · rw [cast_of_ne hab]
    exact .refl _

theorem sourceType_of_replaces (h : TypeId.Replaces a a') : sourceType a = sourceType a' := by
  cases h <;> rfl

/-- Below the level a target is read as a source is. -/
theorem targetType_of_lt (h : r.level < stringCastLevel) (b : TypeId) :
    r.targetType b = sourceType b := by
  unfold targetType sourceType
  simp only [h, and_true]

theorem cast_alike_of_replaces (h : r.level < stringCastLevel) (ha : TypeId.Replaces a a')
    (hb : TypeId.Replaces b b') : (r.cast a b explicit).Alike (r.cast a' b' explicit) := by
  have hread (a b : TypeId) : (r.cast a b explicit).Alike
      (r.castRead (sourceType a) (sourceType b) explicit) := by
    have hcast : (r.cast a b explicit).Alike _ := cast_alike_castRead fun hab => by
      rw [hab, targetType_of_lt h]
    rwa [targetType_of_lt h] at hcast
  have hleft := hread a b
  rw [sourceType_of_replaces ha, sourceType_of_replaces hb] at hleft
  exact hleft.trans (hread a' b').symm

/-- Only as a target a string is not read as `u64` at every level. -/
theorem cast_string_alike (hb : b ≠ .string) :
    (r.cast .u64 b explicit).Alike (r.cast .string b explicit) := by
  have htarget : r.targetType b = b := targetType_of_ne hb
  have hword : (r.cast .u64 b explicit).Alike (r.castRead .u64 (r.targetType b) explicit) :=
    cast_alike_castRead fun h => h.trans htarget.symm
  have hstring : r.cast .string b explicit = r.castRead .u64 (r.targetType b) explicit :=
    cast_of_ne (Ne.symm hb)
  rw [hstring]
  exact hword

theorem Fits.of_replaces (h : r.level < stringCastLevel)
    {arguments arguments' parameters parameters' : List TypeId}
    (hfits : r.Fits arguments parameters) (ha : List.Forall₂ TypeId.Replaces arguments arguments')
    (hp : List.Forall₂ TypeId.Replaces parameters parameters') : r.Fits arguments' parameters' := by
  induction hfits generalizing arguments' parameters' with
  | nil =>
    cases ha
    cases hp
    exact .nil
  | @cons a p arguments parameters hcast _ ih =>
    obtain ⟨a', _, hfirst, harguments, rfl⟩ := List.forall₂_cons_left_iff.mp ha
    obtain ⟨p', _, hfirst', hparameters, rfl⟩ := List.forall₂_cons_left_iff.mp hp
    have halike : (r.cast a p false).Alike (r.cast a' p' false) :=
      cast_alike_of_replaces h hfirst hfirst'
    have hcast' : r.canImplicitly a' p' = true := halike.isValid_eq.symm.trans hcast
    exact .cons hcast' (ih harguments hparameters)

/-- Below the level, a string may stand for `u64` and `u64` for a string in any number of places:
the same functions fit the same arguments, and every cast does the same. At every level a string
is cast to each type but itself as a `u64` is. -/
theorem string_stands_for_u64 (r : CastRules hash) :
    (r.level < stringCastLevel →
      (∀ arguments arguments' parameters parameters',
        List.Forall₂ TypeId.Replaces arguments arguments' →
        List.Forall₂ TypeId.Replaces parameters parameters' →
          r.canMatch arguments parameters = r.canMatch arguments' parameters') ∧
      ∀ a a' b b' explicit, TypeId.Replaces a a' → TypeId.Replaces b b' →
        (r.cast a b explicit).Alike (r.cast a' b' explicit)) ∧
    ∀ b explicit, b ≠ .string → (r.cast .u64 b explicit).Alike (r.cast .string b explicit) := by
  constructor
  · intro h
    constructor
    · intro arguments arguments' parameters parameters' ha hp
      have hsymm {as bs : List TypeId} (h : List.Forall₂ TypeId.Replaces as bs) :
          List.Forall₂ TypeId.Replaces bs as := (h.imp fun _ _ => .symm).flip
      rw [Bool.eq_iff_iff, canMatch_iff, canMatch_iff]
      constructor
      · intro hfits
        exact hfits.of_replaces h ha hp
      · intro hfits
        exact hfits.of_replaces h (hsymm ha) (hsymm hp)
    · intro a a' b b' explicit ha hb
      exact cast_alike_of_replaces h ha hb
  · intro b explicit hb
    exact cast_string_alike hb

/-- A string and a `u64` change places among the arguments and among the parameters of a function
that takes an array of bytes too. -/
theorem string_stands_for_u64_array :
    let r : CastRules .standard := ⟨((TypeTables.new .new).run [.arrayOf .u8 4]).2.types, 1⟩
    let array : TypeId := ⟨TypeId.firstDynamic⟩
    r.level < stringCastLevel ∧ r.canMatch [.string, array, .u32] [.u64, array, .string] = true ∧
      r.canMatch [.u64, array, .u32] [.string, array, .u64] = true ∧
      r.cast .u64 .string false = ⟨.noCast, 1⟩ ∧
      (r.cast .u64 .u64 false).Alike ⟨.noCast, 1⟩ ∧
      array ≠ .string ∧ r.cast .string array true = .invalid ∧
      (r.cast .u64 array true).kind = .invalid := by
  intro r array
  have hlevel : r.level < stringCastLevel := by decide
  obtain ⟨hbelow, hsource⟩ := string_stands_for_u64 r
  obtain ⟨hcalls, hcasts⟩ := hbelow hlevel
  have hmatch : r.canMatch [.string, array, .u32] [.u64, array, .string] = true := by
    decide +kernel
  have hreplaced := hcalls [.string, array, .u32] [.u64, array, .u32] [.u64, array, .string]
    [.string, array, .u64] (.cons .stringByWord (.cons (.same array) (.cons (.same .u32) .nil)))
    (.cons .wordByString (.cons (.same array) (.cons .stringByWord .nil)))
  have hcast : r.cast .u64 .string false = ⟨.noCast, 1⟩ := by decide +kernel
  have hself := hcasts .u64 .u64 .u64 .string false (.same .u64) .wordByString
  have hne : array ≠ .string := by decide
  have hinvalid : r.cast .string array true = .invalid := by decide +kernel
  have harray := hsource array true hne
  rw [hcast] at hself
  rw [hinvalid] at harray
  exact ⟨hlevel, hmatch, hreplaced.symm.trans hmatch, hcast, hself, hne, hinvalid, harray.kind⟩

end CastRules
end ScriptFront

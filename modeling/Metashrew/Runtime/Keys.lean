import Metashrew.Lib.Bytes

namespace Metashrew

open Bytes

def smtRootPrefix : Bytes := ascii "smt:root:"
def manifestPrefix : Bytes := ascii "/__INTERNAL/keys-at-height/"
def blockHashPrefix : Bytes := ascii "/__INTERNAL/height-to-hash/"
def tipHeightKey : Bytes := ascii "/__INTERNAL/tip-height"
def indexedHeightKey : Bytes := ascii "__INTERNAL/height"
def lengthSuffix : Bytes := ascii "/length"

def lengthKey (key : Bytes) : Bytes := key ++ lengthSuffix
def updateKey (key : Bytes) (i : Nat) : Bytes := key ++ ascii "/" ++ decimal i
def rootKey (height : Nat) : Bytes := smtRootPrefix ++ decimal height
def manifestKey (height : Nat) : Bytes := manifestPrefix ++ decimal height
/-- The record of a tree node, by its raw hash. -/
def smtNodeKey (hash : Bytes) : Bytes := ascii "smt:node:" ++ ascii ":" ++ hash
def blockHashKey (height : Nat) : Bytes := blockHashPrefix ++ decimal height
/-- Metadata names of an older layout; nothing writes them any more, both rollbacks delete them. -/
def blockHashMetaKey (height : Nat) : Bytes := ascii "block_hash_" ++ decimal height
def stateRootMetaKey (height : Nat) : Bytes := ascii "state_root_" ++ decimal height

/-- The user keys whose update records would be the manifests, or the block hashes. -/
def manifestBase : Bytes := ascii "/__INTERNAL/keys-at-height"
def blockHashBase : Bytes := ascii "/__INTERNAL/height-to-hash"

theorem manifestKey_eq (h : Nat) : manifestKey h = updateKey manifestBase h := rfl

theorem blockHashKey_eq (h : Nat) : blockHashKey h = updateKey blockHashBase h := rfl

/-- The kinds of record in the store. Manifests and block hashes are the update records of
`manifestBase` and `blockHashBase`. -/
inductive Record where
  | length (key : Bytes)
  | update (key : Bytes) (i : Nat)
  | root (height : Nat)
  | blockHashMeta (height : Nat)
  | stateRootMeta (height : Nat)
  | tipHeight
  | indexedHeight
  deriving DecidableEq, Repr

namespace Record

def name : Record → Bytes
  | length key => lengthKey key
  | update key i => updateKey key i
  | root h => rootKey h
  | blockHashMeta h => blockHashMetaKey h
  | stateRootMeta h => stateRootMetaKey h
  | tipHeight => tipHeightKey
  | indexedHeight => indexedHeightKey

/-- The part of a name before its last slash, when it has one, and the part after it. -/
def path : Record → Option Bytes × Bytes
  | length key => (some key,ascii "length")
  | update key i => (some key,decimal i)
  | root h => (none,rootKey h)
  | blockHashMeta h => (none,blockHashMetaKey h)
  | stateRootMeta h => (none,stateRootMetaKey h)
  | tipHeight => (some (ascii "/__INTERNAL"),ascii "tip-height")
  | indexedHeight => (some (ascii "__INTERNAL"),ascii "height")

def joinPath : Option Bytes × Bytes → Bytes
  | (none,file) => file
  | (some dir,file) => dir ++ 47::file

private theorem slash_not_mem_decimal (n : Nat) : (47:UInt8) ∉ decimal n :=
  not_mem_decimal (by decide) n

private theorem slash_not_mem_file (r : Record) : (47:UInt8) ∉ r.path.2 := by
  have hd := slash_not_mem_decimal
  cases r with
  | length key => exact (by decide : (47:UInt8) ∉ ascii "length")
  | update key i => exact hd i
  | root h =>
    rw [path, rootKey, List.mem_append, not_or]
    exact ⟨by decide,hd h⟩
  | blockHashMeta h =>
    rw [path, blockHashMetaKey, List.mem_append, not_or]
    exact ⟨by decide,hd h⟩
  | stateRootMeta h =>
    rw [path, stateRootMetaKey, List.mem_append, not_or]
    exact ⟨by decide,hd h⟩
  | tipHeight => decide
  | indexedHeight => decide

theorem name_eq_joinPath (r : Record) : r.name = joinPath r.path := by
  cases r with
  | update key i => simp only [name, updateKey, path, joinPath, List.append_assoc]; rfl
  | length key => rfl
  | root h => rfl
  | blockHashMeta h => rfl
  | stateRootMeta h => rfl
  | tipHeight => rfl
  | indexedHeight => rfl

private theorem append_slash_inj {a b x y : Bytes} (hx : (47:UInt8) ∉ x) (hy : (47:UInt8) ∉ y)
    (h : a ++ 47::x = b ++ 47::y) : a = b ∧ x = y := by
  have hrev := congrArg List.reverse h
  have hs := splitAtByte_append (b := 47) (x := x.reverse) (by simpa using hx) a.reverse
  have ht := splitAtByte_append (b := 47) (x := y.reverse) (by simpa using hy) b.reverse
  have he : x.reverse ++ 47::a.reverse = y.reverse ++ 47::b.reverse := by
    simpa [List.append_assoc] using hrev
  rw [he, ht] at hs
  have hp := Option.some.inj hs
  rw [Prod.mk.injEq] at hp
  exact ⟨List.reverse_injective hp.2.symm,List.reverse_injective hp.1.symm⟩

private theorem joinPath_injective {p q : Option Bytes × Bytes} (hp : (47:UInt8) ∉ p.2)
    (hq : (47:UInt8) ∉ q.2) (h : joinPath p = joinPath q) : p = q := by
  obtain ⟨_ | d,f⟩ := p <;> obtain ⟨_ | e,g⟩ := q
  · exact congrArg (Prod.mk none) h
  · simp only [joinPath] at h
    exact absurd (by rw [h]; simp) hp
  · simp only [joinPath] at h
    exact absurd (by rw [← h]; simp) hq
  · obtain ⟨rfl,rfl⟩ := append_slash_inj hp hq h
    rfl

private theorem decimal_ne_ascii {s : String} {b : UInt8} (hb : isDigit b = false)
    (hs : b ∈ ascii s) (n : Nat) : decimal n ≠ ascii s := by
  intro h
  exact not_mem_decimal hb n (h ▸ hs)

private theorem path_injective {r r' : Record} (h : r.path = r'.path) : r=r' := by
  have hlen := fun n => decimal_ne_ascii (s := "length") (b := 108) (by decide) (by decide) n
  have htip := fun n => decimal_ne_ascii (s := "tip-height") (b := 116) (by decide) (by decide) n
  have hidx := fun n => decimal_ne_ascii (s := "height") (b := 104) (by decide) (by decide) n
  have htake : ∀ h, (rootKey h).take 2 = [115,109] ∧ (blockHashMetaKey h).take 2 = [98,108] ∧
      (stateRootMetaKey h).take 2 = [115,116] := fun h => ⟨rfl,rfl,rfl⟩
  have hfile : ∀ h h', rootKey h ≠ blockHashMetaKey h' ∧ rootKey h ≠ stateRootMetaKey h' ∧
      blockHashMetaKey h ≠ stateRootMetaKey h' := by
    intro h h'
    obtain ⟨h1,h2,_⟩ := htake h
    obtain ⟨_,h4,h5⟩ := htake h'
    refine ⟨fun e => ?_,fun e => ?_,fun e => ?_⟩
    · rw [e, h4] at h1; exact absurd h1 (by decide)
    · rw [e, h5] at h1; exact absurd h1 (by decide)
    · rw [e, h5] at h2; exact absurd h2 (by decide)
  have hconst : ascii "length" ≠ ascii "tip-height" ∧ ascii "length" ≠ ascii "height" ∧
      ascii "tip-height" ≠ ascii "height" := by decide
  have hinj : ∀ (p : Bytes) m n, p ++ decimal m = p ++ decimal n → m=n :=
    fun p m n e => decimal_injective (List.append_cancel_left e)
  cases r <;> cases r' <;>
    simp only [path, Prod.mk.injEq, Option.some.injEq, reduceCtorEq, false_and, true_and] at h
  all_goals grind [rootKey, blockHashMetaKey, stateRootMetaKey, decimal_injective]

theorem name_injective {r s : Record} (h : r.name = s.name) : r=s := by
  rw [name_eq_joinPath, name_eq_joinPath] at h
  exact path_injective (joinPath_injective (slash_not_mem_file r) (slash_not_mem_file s) h)

@[simp] theorem name_inj {r s : Record} : r.name = s.name ↔ r=s :=
  ⟨name_injective,congrArg name⟩

theorem name_ne {r s : Record} (h : r≠s) : r.name≠s.name := fun he => h (name_injective he)

end Record

theorem updateKey_inj (key : Bytes) (i j : Nat) : updateKey key i = updateKey key j ↔ i = j := by
  have h := Record.name_inj (r := .update key i) (s := .update key j)
  simpa [Record.name] using h

theorem slash_mem_lengthKey (key : Bytes) : (47:UInt8) ∈ lengthKey key :=
  List.mem_append_right _ (by decide)

theorem slash_mem_updateKey (key : Bytes) (i : Nat) : (47:UInt8) ∈ updateKey key i :=
  List.mem_append_left _ (List.mem_append_right _ (by decide))

/-- The names the indexer writes or deletes for itself. -/
inductive Internal : Bytes → Prop where
  | root (h : Nat) : Internal (rootKey h)
  | manifest (h : Nat) : Internal (manifestKey h)
  | blockHash (h : Nat) : Internal (blockHashKey h)
  | blockHashMeta (h : Nat) : Internal (blockHashMetaKey h)
  | stateRootMeta (h : Nat) : Internal (stateRootMetaKey h)
  | tipHeight : Internal tipHeightKey
  | indexedHeight : Internal indexedHeightKey

/-- A user key one of whose records has an internal name. -/
def Reserved (key : Bytes) : Prop :=
  ∃ name, Internal name ∧ (name = lengthKey key ∨ ∃ i, name = updateKey key i)

private theorem record_eq_of_internal {r : Record} (h : Internal r.name) :
    (∃ i, r = .root i) ∨ (∃ i, r = .update manifestBase i) ∨ (∃ i, r = .update blockHashBase i) ∨
      (∃ i, r = .blockHashMeta i) ∨ (∃ i, r = .stateRootMeta i) ∨ r = .tipHeight ∨
      r = .indexedHeight := by
  generalize hn : r.name = name at h
  cases h with
  | root i => exact .inl ⟨i,Record.name_injective hn⟩
  | manifest i => exact .inr (.inl ⟨i,Record.name_injective hn⟩)
  | blockHash i => exact .inr (.inr (.inl ⟨i,Record.name_injective hn⟩))
  | blockHashMeta i => exact .inr (.inr (.inr (.inl ⟨i,Record.name_injective hn⟩)))
  | stateRootMeta i => exact .inr (.inr (.inr (.inr (.inl ⟨i,Record.name_injective hn⟩))))
  | tipHeight => exact .inr (.inr (.inr (.inr (.inr (.inl (Record.name_injective hn))))))
  | indexedHeight => exact .inr (.inr (.inr (.inr (.inr (.inr (Record.name_injective hn))))))

theorem not_internal_lengthKey (key : Bytes) : ¬Internal (lengthKey key) := by
  intro h
  have hr := record_eq_of_internal (r := .length key) h
  simp at hr

/-- Only two user keys are in conflict with the internal names. -/
theorem reserved_iff {key : Bytes} : Reserved key ↔ key = manifestBase ∨ key = blockHashBase := by
  constructor
  · rintro ⟨name,hint,rfl | ⟨i,rfl⟩⟩
    · exact absurd hint (not_internal_lengthKey key)
    · have hr := record_eq_of_internal (r := .update key i) hint
      simp only [reduceCtorEq, exists_false, Record.update.injEq, false_or, or_false] at hr
      rcases hr with ⟨_,hk,_⟩ | ⟨_,hk,_⟩
      · exact .inl hk
      · exact .inr hk
  · rintro (rfl | rfl)
    · exact ⟨manifestKey 0,.manifest 0,.inr ⟨0,manifestKey_eq 0⟩⟩
    · exact ⟨blockHashKey 0,.blockHash 0,.inr ⟨0,blockHashKey_eq 0⟩⟩

instance : DecidablePred Reserved := fun _ => decidable_of_iff _ reserved_iff.symm

theorem manifestBase_reserved : Reserved manifestBase := reserved_iff.mpr (.inl rfl)

theorem blockHashBase_reserved : Reserved blockHashBase := reserved_iff.mpr (.inr rfl)

theorem manifestBase_ne_blockHashBase : manifestBase ≠ blockHashBase := by decide

end Metashrew

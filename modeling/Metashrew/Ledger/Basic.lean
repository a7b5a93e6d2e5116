import Metashrew.Lib.Versioned
import Metashrew.Runtime.Smt

namespace Metashrew

open Bytes

/-- What an indexer database says, free of its encoding: the history of every user key and the
records of every height. -/
structure Ledger where
  history : Bytes → History Nat Bytes
  root : Nat → Option Bytes
  manifest : Nat → Option (List Bytes)
  hash : Nat → Option Bytes
  tip : Option Nat
  indexed : Option Nat

namespace Ledger

def empty : Ledger := ⟨fun _ => [],fun _ => none,fun _ => none,fun _ => none,none,none⟩

/-- The value of the length record of a key with the given history. -/
def lengthRecord : History Nat Bytes → Option Bytes
  | [] => none
  | e::l => some (decimal (e::l).length)

theorem lengthRecord_of_ne_nil {l : History Nat Bytes} (h : l ≠ []) :
    lengthRecord l = some (decimal l.length) := by
  cases l with
  | nil => exact absurd rfl h
  | cons e l => rfl

/-- The value of one update record. -/
def updateRecord (L : Ledger) (key : Bytes) (i : Nat) : Option Bytes :=
  if key = manifestBase then (L.manifest i).map serializeKeyManifest
  else if key = blockHashBase then L.hash i
  else (L.history key)[i]?.map fun e => formatUpdate e.1 e.2

/-- The value of every record. -/
def lookup (L : Ledger) : Record → Option Bytes
  | .length key => lengthRecord (L.history key)
  | .update key i => L.updateRecord key i
  | .root h => L.root h
  | .blockHashMeta _ => none
  | .stateRootMeta _ => none
  | .tipHeight => L.tip.map u32le
  | .indexedHeight => L.indexed.map u32le

def setRoot (L : Ledger) (h : Nat) (root : Option Bytes) : Ledger :=
  { L with root := Function.update L.root h root }

def setManifest (L : Ledger) (h : Nat) (keys : Option (List Bytes)) : Ledger :=
  { L with manifest := Function.update L.manifest h keys }

def setHash (L : Ledger) (h : Nat) (hash : Option Bytes) : Ledger :=
  { L with hash := Function.update L.hash h hash }

def setTip (L : Ledger) (h : Nat) : Ledger := { L with tip := some h }

def setIndexed (L : Ledger) (h : Nat) : Ledger := { L with indexed := some h }

def append (L : Ledger) (h : Nat) (key value : Bytes) : Ledger :=
  { L with history := Function.update L.history key (L.history key ++ [(h,value)]) }

end Ledger

/-- The store holds exactly the ledger's records under their names. -/
def Represents (σ : Store) (L : Ledger) : Prop := ∀ r : Record, KV.get σ r.name = L.lookup r

private theorem getElem?_append_singleton {α : Type} {l : List α} {i : Nat} (a : α)
    (hi : l.length≠i) : (l ++ [a])[i]? = l[i]? := by
  rcases Nat.lt_or_gt_of_ne hi with hlt | hgt
  · rw [List.getElem?_eq_none (by simp; omega), List.getElem?_eq_none (by omega)]
  · rw [List.getElem?_append_left hgt]

namespace Represents

theorem empty : Represents ∅ Ledger.empty := by
  intro r
  rw [KV.get_empty]
  cases r with
  | update key i => simp [Ledger.lookup, Ledger.updateRecord, Ledger.empty]
  | length key => rfl
  | _ => simp [Ledger.lookup, Ledger.empty]

/-- A batch represents the change it makes to every record. -/
theorem write {σ : Store} {L L' : Ledger} (hσ : Represents σ L) {ops : List Op}
    (h : ∀ r : Record, (KV.effect ops r.name).getD (L.lookup r) = L'.lookup r) :
    Represents (KV.write σ ops) L' := by
  intro r
  rw [KV.get_write, hσ r, h r]

variable {σ : Store} {L : Ledger}

theorem get_length (hσ : Represents σ L) (key : Bytes) :
    KV.get σ (lengthKey key) = Ledger.lengthRecord (L.history key) :=
  hσ (.length key)

theorem get_update (hσ : Represents σ L) {key : Bytes} (hk : ¬Reserved key) (i : Nat) :
    KV.get σ (updateKey key i) = (L.history key)[i]?.map fun e => formatUpdate e.1 e.2 := by
  rw [reserved_iff, not_or] at hk
  have h : KV.get σ (updateKey key i) = L.updateRecord key i := hσ (.update key i)
  rw [h, Ledger.updateRecord, if_neg hk.1, if_neg hk.2]

theorem get_manifest (hσ : Represents σ L) (h : Nat) :
    KV.get σ (manifestKey h) = (L.manifest h).map serializeKeyManifest := by
  rw [manifestKey_eq]
  have he : KV.get σ (updateKey manifestBase h) = L.updateRecord manifestBase h :=
    hσ (.update manifestBase h)
  rw [he, Ledger.updateRecord, if_pos rfl]

theorem get_hash (hσ : Represents σ L) (h : Nat) : KV.get σ (blockHashKey h) = L.hash h := by
  rw [blockHashKey_eq]
  have he : KV.get σ (updateKey blockHashBase h) = L.updateRecord blockHashBase h :=
    hσ (.update blockHashBase h)
  rw [he, Ledger.updateRecord, if_neg manifestBase_ne_blockHashBase.symm, if_pos rfl]

theorem get_root (hσ : Represents σ L) (h : Nat) : KV.get σ (rootKey h) = L.root h :=
  hσ (.root h)

theorem get_indexed (hσ : Represents σ L) :
    KV.get σ indexedHeightKey = L.indexed.map u32le := hσ .indexedHeight

theorem get_tip (hσ : Represents σ L) : KV.get σ tipHeightKey = L.tip.map u32le := hσ .tipHeight

end Represents

namespace Represents

variable {σ : Store} {L : Ledger}

/-- One write on the record `r` represents the change of that record alone. -/
theorem op (hσ : Represents σ L) {L' : Ledger} {r : Record} {w : Op} (hk : w.key = r.name)
    (h : ∀ r', L'.lookup r' = if r = r' then w.value else L.lookup r') :
    Represents (KV.write σ [w]) L' := by
  refine hσ.write fun r' => ?_
  rw [h r']
  by_cases hr : r=r' <;> simp [KV.effect, hk, hr]

theorem setRoot (hσ : Represents σ L) (h : Nat) {w : Op} (hk : w.key = rootKey h) :
    Represents (KV.write σ [w]) (L.setRoot h w.value) := by
  refine hσ.op (r := .root h) hk fun r' => ?_
  cases r' with
  | root i =>
    by_cases hi : h=i
    · simp [Ledger.lookup, Ledger.setRoot, hi]
    · simp [Ledger.lookup, Ledger.setRoot, hi, Function.update_of_ne (Ne.symm hi)]
  | update key i => simp [Ledger.lookup, Ledger.updateRecord, Ledger.setRoot]
  | _ => simp [Ledger.lookup, Ledger.setRoot]

theorem setHash (hσ : Represents σ L) (h : Nat) {w : Op} (hk : w.key = blockHashKey h) :
    Represents (KV.write σ [w]) (L.setHash h w.value) := by
  refine hσ.op (r := .update blockHashBase h) hk fun r' => ?_
  cases r' with
  | update key i =>
    simp only [Ledger.lookup, Ledger.updateRecord, Ledger.setHash, Record.update.injEq,
      Function.update_apply]
    have hne := manifestBase_ne_blockHashBase
    grind
  | _ => simp [Ledger.lookup, Ledger.setHash]

theorem setManifest (hσ : Represents σ L) (h : Nat) {w : Op} {k : Option (List Bytes)}
    (hk : w.key = manifestKey h) (hv : w.value = k.map serializeKeyManifest) :
    Represents (KV.write σ [w]) (L.setManifest h k) := by
  refine hσ.op (r := .update manifestBase h) hk fun r' => ?_
  cases r' with
  | update key i =>
    simp only [Ledger.lookup, Ledger.updateRecord, Ledger.setManifest, Record.update.injEq,
      Function.update_apply, hv]
    grind
  | _ => simp [Ledger.lookup, Ledger.setManifest]

theorem setTip (hσ : Represents σ L) (h : Nat) :
    Represents (KV.write σ [.put tipHeightKey (u32le h)]) (L.setTip h) := by
  refine hσ.op (r := .tipHeight) rfl fun r' => ?_
  cases r' with
  | update key i => simp [Ledger.lookup, Ledger.updateRecord, Ledger.setTip]
  | _ => simp [Ledger.lookup, Ledger.setTip, KV.Op.value]

theorem setIndexed (hσ : Represents σ L) (h : Nat) :
    Represents (KV.write σ [.put indexedHeightKey (u32le h)]) (L.setIndexed h) := by
  refine hσ.op (r := .indexedHeight) rfl fun r' => ?_
  cases r' with
  | update key i => simp [Ledger.lookup, Ledger.updateRecord, Ledger.setIndexed]
  | _ => simp [Ledger.lookup, Ledger.setIndexed, KV.Op.value]

/-- Deleting a record that no ledger holds changes nothing. -/
theorem delete_absent (hσ : Represents σ L) {r : Record} (h : L.lookup r = none) :
    Represents (KV.write σ [.delete r.name]) L := by
  refine hσ.op (r := r) rfl fun r' => ?_
  split_ifs with he
  · rw [← he, h]; rfl
  · rfl

/-- The two writes of one update. -/
theorem append (hσ : Represents σ L) {key : Bytes} (hk : ¬Reserved key) (h : Nat) (value : Bytes) :
    Represents (KV.write σ [.put (updateKey key (L.history key).length) (formatUpdate h value),
      .put (lengthKey key) (decimal ((L.history key).length+1))]) (L.append h key value) := by
  refine hσ.write fun r => ?_
  rw [reserved_iff, not_or] at hk
  obtain ⟨hm,hb⟩ := hk
  have hu : ∀ r : Record, updateKey key (L.history key).length = r.name ↔
      .update key (L.history key).length = r := fun r => Record.name_inj (r := .update key _)
  have hl : ∀ r : Record, lengthKey key = r.name ↔ .length key = r :=
    fun r => Record.name_inj (r := .length key)
  simp only [KV.effect, KV.Op.key, KV.Op.value, Option.none_or, hu, hl]
  cases r with
  | length key' =>
    by_cases he : key=key'
    · subst he
      have hr : (L.append h key value).lookup (.length key) =
          some (decimal ((L.history key).length+1)) := by
        have hn := Ledger.lengthRecord_of_ne_nil (List.append_ne_nil_of_right_ne_nil
          (L.history key) (List.cons_ne_nil (h,value) []))
        simpa [Ledger.lookup, Ledger.append] using hn
      simp [hr]
    · simp [Ledger.lookup, Ledger.append, he, Function.update_of_ne (Ne.symm he)]
  | update key' i =>
    by_cases he : key=key'
    · subst he
      by_cases hi : (L.history key).length=i
      · subst hi; simp [Ledger.lookup, Ledger.updateRecord, Ledger.append, hm, hb]
      · have hc := getElem?_append_singleton (h,value) hi
        simp [Ledger.lookup, Ledger.updateRecord, Ledger.append, hm, hb, hi, hc]
    · simp [Ledger.lookup, Ledger.updateRecord, Ledger.append, he,
        Function.update_of_ne (Ne.symm he)]
  | _ => simp [Ledger.lookup, Ledger.append]

end Represents

/-- What the reads of user keys rest on: every length record, and the update records of every key
whose names no internal record uses. -/
structure HoldsHistories (σ : Store) (H : Bytes → History Nat Bytes) : Prop where
  length : ∀ key, KV.get σ (lengthKey key) = Ledger.lengthRecord (H key)
  update : ∀ key, ¬Reserved key → ∀ i : Nat,
    KV.get σ (updateKey key i) = (H key)[i]?.map fun e => formatUpdate e.1 e.2

/-- The length record and the update records of one key. -/
structure HasHistory (σ : Store) (key : Bytes) (l : History Nat Bytes) : Prop where
  length : KV.get σ (lengthKey key) = Ledger.lengthRecord l
  update : ∀ i (hi : i < l.length),
    KV.get σ (updateKey key i) = some (formatUpdate l[i].1 l[i].2)

theorem HoldsHistories.hasHistory {σ : Store} {H : Bytes → History Nat Bytes}
    (hσ : HoldsHistories σ H) {key : Bytes} (hk : ¬Reserved key ∨ H key = []) :
    HasHistory σ key (H key) where
  length := hσ.length key
  update i hi := by
    obtain hk | hnil := hk
    · rw [hσ.update key hk, List.getElem?_eq_getElem hi]
      rfl
    · rw [hnil] at hi
      exact absurd hi (Nat.not_lt_zero i)

theorem Represents.holdsHistories {σ : Store} {L : Ledger} (hσ : Represents σ L) :
    HoldsHistories σ L.history where
  length := hσ.get_length
  update _ hk i := hσ.get_update hk i

namespace HoldsHistories

theorem empty : HoldsHistories ∅ fun _ => [] := Represents.empty.holdsHistories

variable {σ : Store} {H : Bytes → History Nat Bytes}

/-- The length of a key as the code reads it. -/
theorem parse_length (hσ : HoldsHistories σ H) {key : Bytes} (hs : (H key).length < 2^32) :
    ((KV.get σ (lengthKey key)).map parseLength).getD 0 = (H key).length := by
  rw [hσ.length]
  cases hl : H key with
  | nil => rfl
  | cons e l =>
    rw [hl] at hs
    simp only [Ledger.lengthRecord, Option.map_some, Option.getD_some, parseLength,
      parseU32_decimal hs]

/-- The internal records do not matter. -/
theorem of_agree (hσ : HoldsHistories σ H) {τ : Store}
    (h : ∀ name, ¬Internal name → KV.get τ name = KV.get σ name) : HoldsHistories τ H where
  length key := by
    rw [h _ (not_internal_lengthKey key), hσ.length]
  update key hk i := by
    rw [h _ fun hint => hk ⟨updateKey key i,hint,.inr ⟨i,rfl⟩⟩, hσ.update key hk]

theorem internal (hσ : HoldsHistories σ H) {ops : List Op} (ho : ∀ op ∈ ops, Internal op.key) :
    HoldsHistories (KV.write σ ops) H := by
  apply hσ.of_agree
  intro name hn
  apply KV.get_write_of_not_mem
  intro op hop he
  exact hn (he ▸ ho op hop)

/-- The two writes of one update, as the reads see them. -/
theorem get_length_append (σ : Store) (key key' : Bytes) (n : Nat) (v w : Bytes) :
    KV.get (KV.write σ [.put (updateKey key n) v,.put (lengthKey key) w]) (lengthKey key') =
      if key=key' then some w else KV.get σ (lengthKey key') := by
  have h1 : updateKey key n = lengthKey key' ↔ Record.update key n = .length key' :=
    Record.name_inj (r := .update key n) (s := .length key')
  have h2 : lengthKey key = lengthKey key' ↔ Record.length key = .length key' :=
    Record.name_inj (r := .length key) (s := .length key')
  simp only [reduceCtorEq, Record.length.injEq] at h1 h2
  rw [KV.get_write]
  simp only [KV.effect, KV.Op.key, KV.Op.value, Option.none_or, h1, h2, if_false]
  split_ifs <;> rfl

theorem get_update_append (σ : Store) (key key' : Bytes) (n i : Nat) (v w : Bytes) :
    KV.get (KV.write σ [.put (updateKey key n) v,.put (lengthKey key) w]) (updateKey key' i) =
      if key=key' ∧ n=i then some v else KV.get σ (updateKey key' i) := by
  have h1 : updateKey key n = updateKey key' i ↔ Record.update key n = .update key' i :=
    Record.name_inj (r := .update key n) (s := .update key' i)
  have h2 : lengthKey key = updateKey key' i ↔ Record.length key = .update key' i :=
    Record.name_inj (r := .length key) (s := .update key' i)
  simp only [reduceCtorEq, Record.update.injEq] at h1 h2
  rw [KV.get_write]
  simp only [KV.effect, KV.Op.key, KV.Op.value, Option.none_or, h1, h2, if_false]
  split_ifs <;> rfl

/-- The two writes of one update, of any key. -/
theorem append (hσ : HoldsHistories σ H) (h : Nat) (key value : Bytes) :
    HoldsHistories (KV.write σ [.put (updateKey key (H key).length) (formatUpdate h value),
      .put (lengthKey key) (decimal ((H key).length+1))])
      (Function.update H key (H key ++ [(h,value)])) := by
  constructor
  · intro key'
    rw [get_length_append, hσ.length]
    split_ifs with he
    · rw [← he, Function.update_self, Ledger.lengthRecord_of_ne_nil (by simp), List.length_append]
      rfl
    · rw [Function.update_of_ne (Ne.symm he)]
  · intro key' hk' i
    rw [get_update_append, hσ.update key' hk']
    by_cases he : key=key'
    · subst he
      by_cases hi : (H key).length=i
      · subst hi; simp
      · have hc := getElem?_append_singleton (h,value) hi
        simp [hi, hc]
    · simp [he, Function.update_of_ne (Ne.symm he)]

end HoldsHistories

/-- The same for a key that has its history, when the updated one has. -/
theorem HasHistory.append {σ : Store} {H : Bytes → History Nat Bytes} {key key' : Bytes}
    (hσ : HasHistory σ key (H key)) (hσ' : HasHistory σ key' (H key')) (h : Nat) (value : Bytes) :
    HasHistory (KV.write σ [.put (updateKey key (H key).length) (formatUpdate h value),
      .put (lengthKey key) (decimal ((H key).length+1))]) key'
      (Function.update H key (H key ++ [(h,value)]) key') := by
  by_cases he : key=key'
  · subst he
    rw [Function.update_self]
    constructor
    · rw [HoldsHistories.get_length_append, if_pos rfl, Ledger.lengthRecord_of_ne_nil (by simp),
        List.length_append]
      rfl
    · intro i hi
      rw [HoldsHistories.get_update_append]
      by_cases hlast : (H key).length=i
      · subst hlast
        simp
      · have hlt : i<(H key).length := by
          rw [List.length_append, List.length_singleton] at hi
          omega
        rw [if_neg fun h => hlast h.2, hσ.update i hlt, List.getElem_append_left hlt]
  · rw [Function.update_of_ne (Ne.symm he)]
    constructor
    · rw [HoldsHistories.get_length_append, if_neg he, hσ'.length]
    · intro i hi
      rw [HoldsHistories.get_update_append, if_neg fun h => he h.1, hσ'.update i hi]

end Metashrew

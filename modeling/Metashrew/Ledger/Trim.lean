import Metashrew.Ledger.Sound

namespace Metashrew

open Bytes Versioned

namespace Ledger

/-- Drops the updates above `r` of the listed keys. -/
def trimKeys (L : Ledger) (r : Nat) (keys : List Bytes) : Ledger :=
  { L with history := fun key => if key ∈ keys then upTo r (L.history key) else L.history key }

/-- Drops the manifest, root and block hash of a height. -/
def dropHeight (L : Ledger) (h : Nat) : Ledger :=
  ((L.setManifest h none).setRoot h none).setHash h none

/-- Drops the roots above `r`. -/
def dropRoots (L : Ledger) (r : Nat) : Ledger :=
  { L with root := fun h => if r < h then none else L.root h }

end Ledger

section Ops

variable (σ : Store) (r : Nat) (key : Bytes)

/-- The names of one key's records. -/
def KeyName (name : Bytes) : Prop := name = lengthKey key ∨ ∃ i, name = updateKey key i

theorem walkBack_names (i newLength : Nat) :
    ∀ op ∈ (walkBack σ r key i newLength).1, KeyName key op.key := by
  induction i generalizing newLength with
  | zero => exact fun _ h => absurd h List.not_mem_nil
  | succ i ih =>
    rw [walkBack]
    split
    · exact ih newLength
    · split_ifs
      · intro op hop
        rcases List.mem_cons.mp hop with rfl | h
        · exact .inr ⟨i,rfl⟩
        · exact ih i op h
      · exact fun _ h => absurd h List.not_mem_nil

/-- Trimming a key touches no other record. -/
theorem trimKey_names : ∀ op ∈ trimKey σ r key, KeyName key op.key := by
  intro op hop
  rw [trimKey] at hop
  split at hop
  · cases hop
  · rename_i lengthBytes _
    have hw := walkBack_names σ r key (parseLength lengthBytes) (parseLength lengthBytes)
    dsimp only at hop
    split_ifs at hop
    · exact hw op hop
    · rcases List.mem_append.mp hop with h | h
      · exact hw op h
      · rw [List.mem_singleton.mp h]
        exact .inl rfl
    · rcases List.mem_append.mp hop with h | h
      · exact hw op h
      · rw [List.mem_singleton.mp h]
        exact .inl rfl

/-- Neither does compacting it. -/
theorem compactionOps_names (oldLength : Nat) :
    ∀ op ∈ compactionOps σ r key oldLength, KeyName key op.key := by
  intro op hop
  rw [compactionOps, List.mem_append, List.mem_append] at hop
  rcases hop with (h | h) | h
  · obtain ⟨i,_,rfl⟩ := List.mem_map.mp h
    exact .inr ⟨i,rfl⟩
  · obtain ⟨d,_,rfl⟩ := List.mem_map.mp h
    exact .inr ⟨d.2,rfl⟩
  · rw [List.mem_singleton.mp h]
    split_ifs <;> exact .inl rfl

variable {key}

theorem keyName_iff {rec : Record} : KeyName key rec.name ↔
    rec = .length key ∨ ∃ i, rec = .update key i := by
  refine or_congr ?_ (exists_congr fun i => ?_)
  · exact ⟨fun h => Record.name_injective (s := .length key) h,fun h => congrArg Record.name h⟩
  · exact ⟨fun h => Record.name_injective (s := .update key i) h,fun h => congrArg Record.name h⟩

/-- Two keys share no record. -/
theorem KeyName.unique {key' : Bytes} {x : Record} (h : KeyName key x.name)
    (h' : KeyName key' x.name) : key=key' := by
  rw [keyName_iff] at h h'
  grind

end Ops

namespace Ledger

variable {L : Ledger} {r : Nat} {key : Bytes} {keys : List Bytes} {rec : Record}

theorem trimKeys_lookup_of_mem (hk : key ∈ keys) (h : KeyName key rec.name) :
    (L.trimKeys r keys).lookup rec = (L.trimKeys r [key]).lookup rec := by
  rcases keyName_iff.mp h with rfl | ⟨i,rfl⟩
  · simp [lookup, trimKeys, hk]
  · simp [lookup, updateRecord, trimKeys, hk]

theorem trimKeys_lookup_of_not_mem (h : ∀ key ∈ keys, ¬KeyName key rec.name) :
    (L.trimKeys r keys).lookup rec = L.lookup rec := by
  cases rec with
  | length key =>
    have hk : key∉keys := fun hm => h key hm (keyName_iff.mpr (.inl rfl))
    simp [lookup, trimKeys, hk]
  | update key i =>
    have hk : key∉keys := fun hm => h key hm (keyName_iff.mpr (.inr ⟨i,rfl⟩))
    simp [lookup, updateRecord, trimKeys, hk]
  | _ => rfl

end Ledger

section Effect

variable {σ : Store} {L : Ledger} {n r : Nat} {key : Bytes}

/-- A batch that leaves of one key exactly the updates up to `r`. -/
def TrimsKey (L : Ledger) (r : Nat) (key : Bytes) (ops : List Op) : Prop :=
  (∀ op ∈ ops, KeyName key op.key) ∧
    ∀ rec, KeyName key rec.name →
      (KV.effect ops rec.name).getD (L.lookup rec) = (L.trimKeys r [key]).lookup rec

/-- Batches for distinct keys can be joined. -/
theorem TrimsKey.flatMap {f : Bytes → List Op} (hf : ∀ key, TrimsKey L r key (f key))
    (hσ : Represents σ L) (keys : List Bytes) :
    Represents (KV.write σ (keys.flatMap f)) (L.trimKeys r keys) := by
  refine hσ.write fun rec => ?_
  have hnone : ∀ key, ¬KeyName key rec.name → KV.effect (f key) rec.name = none :=
    fun key hk => KV.effect_eq_none fun op hop he => hk (he ▸ (hf key).1 op hop)
  by_cases hmem : ∃ key ∈ keys, KeyName key rec.name
  · obtain ⟨key,hk,hname⟩ := hmem
    rw [KV.effect_flatMap f key keys rec.name hk fun key' hne =>
      hnone key' fun h => hne (h.unique hname)]
    rw [Ledger.trimKeys_lookup_of_mem hk hname]
    exact (hf key).2 rec hname
  · have hno : ∀ key ∈ keys, ¬KeyName key rec.name := fun key hk hname => hmem ⟨key,hk,hname⟩
    rw [Ledger.trimKeys_lookup_of_not_mem hno, KV.effect_eq_none]
    · rfl
    · intro op hop he
      obtain ⟨key,hk,hop'⟩ := List.mem_flatMap.mp hop
      exact hno key hk (he ▸ (hf key).1 op hop')

theorem TrimsKey.write {ops : List Op} (hops : TrimsKey L r key ops) (hσ : Represents σ L) :
    Represents (KV.write σ ops) (L.trimKeys r [key]) := by
  refine hσ.write fun rec => ?_
  by_cases hname : KeyName key rec.name
  · exact hops.2 rec hname
  · have hnone : KV.effect ops rec.name = none :=
      KV.effect_eq_none fun op hop he => hname (he ▸ hops.1 op hop)
    rw [Ledger.trimKeys_lookup_of_not_mem (by simpa using hname), hnone]
    rfl

/-- The records of a plain key, when a batch deletes the slots from `b` on, keeps those below and
sets the length to `b`. -/
theorem trimsKey_of_effect {ops : List Op} (hk : ¬Reserved key) (ho : Ordered (L.history key))
    (hnames : ∀ op ∈ ops, KeyName key op.key)
    (hlen : (KV.effect ops (lengthKey key)).getD (Ledger.lengthRecord (L.history key)) =
      Ledger.lengthRecord (upTo r (L.history key)))
    (hupd : ∀ i, (KV.effect ops (updateKey key i)).getD
        ((L.history key)[i]?.map fun e => formatUpdate e.1 e.2) =
      if i < (upTo r (L.history key)).length then
        (L.history key)[i]?.map fun e => formatUpdate e.1 e.2 else none) :
    TrimsKey L r key ops := by
  refine ⟨hnames,fun rec hrec => ?_⟩
  rw [reserved_iff, not_or] at hk
  rcases keyName_iff.mp hrec with rfl | ⟨i,rfl⟩
  · have ht : (L.trimKeys r [key]).lookup (.length key) =
        Ledger.lengthRecord (upTo r (L.history key)) := by simp [Ledger.lookup, Ledger.trimKeys]
    rw [ht]
    exact hlen
  · have hl : L.lookup (.update key i) = (L.history key)[i]?.map fun e => formatUpdate e.1 e.2 := by
      simp [Ledger.lookup, Ledger.updateRecord, hk.1, hk.2]
    have ht : (L.trimKeys r [key]).lookup (.update key i) =
        (upTo r (L.history key))[i]?.map fun e => formatUpdate e.1 e.2 := by
      simp [Ledger.lookup, Ledger.updateRecord, Ledger.trimKeys, hk.1, hk.2]
    rw [ht, hl]
    refine (hupd i).trans ?_
    split_ifs with hi
    · rw [ho.getElem_upTo hi]
    · rw [List.getElem?_eq_none (by omega)]
      rfl

theorem trimsKey_nil (hnil : L.history key = []) : TrimsKey L r key [] := by
  refine ⟨fun _ h => absurd h List.not_mem_nil,fun rec hrec => ?_⟩
  rcases keyName_iff.mp hrec with rfl | ⟨i,rfl⟩
  · simp [Ledger.lookup, Ledger.trimKeys, hnil]
  · simp [Ledger.lookup, Ledger.updateRecord, Ledger.trimKeys, hnil]

end Effect

section Walk

variable {σ : Store} {L : Ledger} {n r : Nat} {key : Bytes}

private theorem entry_height (hσ : Represents σ L) (hL : L.Sound n) (hn : n≤2^32)
    (hk : ¬Reserved key) {i : Nat} {e : Nat × Bytes} (he : (L.history key)[i]? = some e) :
    (KV.get σ (updateKey key i)).bind parseHeightFromSmtValue = some e.1 := by
  have hlt := hL.below key e (List.mem_of_getElem? he)
  rw [hσ.get_update hk, he]
  exact parseHeight_formatUpdate (by omega) e.2

/-- The deletions of the slots from `b` on, newest first. -/
def slotOps (key : Bytes) (b len : Nat) : List Op :=
  (List.range' b (len-b)).reverse.map fun j => .delete (updateKey key j)

theorem slotOps_succ (key : Bytes) {b i : Nat} (h : b ≤ i) :
    slotOps key b (i+1) = .delete (updateKey key i) :: slotOps key b i := by
  have h1 : i+1-b = (i-b)+1 := by omega
  have h2 : b+1*(i-b) = i := by omega
  rw [slotOps, h1, List.range'_concat, h2, List.reverse_append]
  rfl

/-- The last write of a trim: the length record for `len` updates. -/
def lengthOp (key : Bytes) (len : Nat) : Op :=
  if 0 < len then .put (lengthKey key) (decimal len) else .delete (lengthKey key)

/-- The backward walk deletes the slots above the updates up to `r`. -/
theorem walkBack_spec (hσ : Represents σ L) (hL : L.Sound n) (hn : n≤2^32) (hk : ¬Reserved key)
    (i newLength : Nat) (hi : i≤(L.history key).length) :
    walkBack σ r key i newLength = (slotOps key (upTo r (L.history key)).length i,
      if (upTo r (L.history key)).length < i then (upTo r (L.history key)).length
      else newLength) := by
  set b := (upTo r (L.history key)).length with hbdef
  induction i generalizing newLength with
  | zero => simp [walkBack, slotOps]
  | succ i ih =>
    have hlt : i<(L.history key).length := by omega
    have he := List.getElem?_eq_getElem hlt
    rw [walkBack, entry_height hσ hL hn hk he]
    dsimp only
    by_cases hb : i<b
    · have hle := (hL.ordered key).le_of_lt_length hb he
      have h0 : i+1-b=0 := by omega
      rw [if_neg (by omega), if_neg (by omega), slotOps, h0]
      rfl
    · have hgt := (hL.ordered key).gt_of_length_le (by omega : b ≤ i) he
      rw [if_pos hgt, ih i (by omega), if_pos (by omega : b < i+1), slotOps_succ key (by omega)]
      congr 1
      dsimp only
      split_ifs <;> omega

private theorem lengthKey_ne_updateKey (key : Bytes) (i : Nat) : lengthKey key ≠ updateKey key i := by
  intro h
  have hr := Record.name_injective (r := .length key) (s := .update key i) h
  cases hr

theorem effect_slotOps (key : Bytes) (b len i : Nat) :
    KV.effect (slotOps key b len) (updateKey key i) =
      if b ≤ i ∧ i < len then some none else none := by
  have hm : slotOps key b len = ((List.range' b (len-b)).reverse.map (updateKey key)).map .delete := by
    simp [slotOps, Function.comp_def]
  rw [hm, KV.effect_deletes]
  congr 1
  simp only [List.mem_map, List.mem_reverse, List.mem_range'_1, updateKey_inj, exists_eq_right,
    eq_iff_iff]
  omega

theorem effect_slotOps_length (key : Bytes) (b len : Nat) :
    KV.effect (slotOps key b len) (lengthKey key) = none := by
  refine KV.effect_eq_none fun op hop he => ?_
  obtain ⟨j,_,rfl⟩ := List.mem_map.mp hop
  exact lengthKey_ne_updateKey key j he.symm

theorem effect_lengthOp (key : Bytes) (l : History Nat Bytes) :
    KV.effect [lengthOp key l.length] (lengthKey key) = some (Ledger.lengthRecord l) := by
  cases l with
  | nil => simp [lengthOp, KV.effect, KV.Op.key, KV.Op.value, Ledger.lengthRecord]
  | cons e l => simp [lengthOp, KV.effect, KV.Op.key, KV.Op.value, Ledger.lengthRecord]

theorem effect_lengthOp_update (key : Bytes) (len i : Nat) :
    KV.effect [lengthOp key len] (updateKey key i) = none := by
  refine KV.effect_eq_none fun op hop he => ?_
  rw [List.mem_singleton.mp hop, lengthOp] at he
  split_ifs at he <;> exact lengthKey_ne_updateKey key i he

private theorem parse_length_record (hL : L.Sound n) (key : Bytes) :
    parseLength (decimal (L.history key).length) = (L.history key).length := by
  rw [parseLength, parseU32_decimal (hL.short key)]
  rfl

/-- The slots that are kept and deleted, whatever is done to the length record. -/
private theorem slots_spec {l : History Nat Bytes} (i : Nat) :
    ((if (upTo r l).length ≤ i ∧ i < l.length then some none else none : Option (Option Bytes)).getD
        (l[i]?.map fun e => formatUpdate e.1 e.2)) =
      if i < (upTo r l).length then l[i]?.map fun e => formatUpdate e.1 e.2 else none := by
  have hble : (upTo r l).length≤l.length := upTo_length_le ..
  by_cases hi : i<(upTo r l).length
  · rw [if_pos hi, if_neg (by omega)]
    rfl
  · rw [if_neg hi]
    by_cases hi' : i<l.length
    · rw [if_pos ⟨by omega,hi'⟩]
      rfl
    · rw [if_neg (by omega), List.getElem?_eq_none (by omega)]
      rfl

private theorem trimKey_eq (hσ : Represents σ L) (hL : L.Sound n) (hn : n≤2^32)
    (hnil : L.history key≠[]) : trimKey σ r key =
      slotOps key (upTo r (L.history key)).length (L.history key).length ++
        if (upTo r (L.history key)).length = (L.history key).length then []
        else [lengthOp key (upTo r (L.history key)).length] := by
  have hk : ¬Reserved key := fun hr => hnil (hL.reserved key hr)
  have hble : (upTo r (L.history key)).length≤(L.history key).length := upTo_length_le ..
  rw [trimKey, hσ.get_length, Ledger.lengthRecord_of_ne_nil hnil]
  simp only [parse_length_record hL, walkBack_spec hσ hL hn hk _ _ le_rfl]
  rcases Nat.lt_or_ge (upTo r (L.history key)).length (L.history key).length with hlt | hge
  · have hne : (upTo r (L.history key)).length≠(L.history key).length := by omega
    simp only [if_pos hlt, if_neg hne, lengthOp]
  · have heq : (upTo r (L.history key)).length=(L.history key).length := by omega
    simp only [heq, lt_irrefl, if_false, if_true, List.append_nil]

/-- The trim of the fast rollback leaves the updates up to `r`. -/
theorem trimKey_trims (hσ : Represents σ L) (hL : L.Sound n) (hn : n≤2^32) (key : Bytes) :
    TrimsKey L r key (trimKey σ r key) := by
  by_cases hnil : L.history key=[]
  · rw [trimKey, hσ.get_length, hnil]
    exact trimsKey_nil hnil
  · have hk : ¬Reserved key := fun hr => hnil (hL.reserved key hr)
    have heq := trimKey_eq (r := r) hσ hL hn hnil
    refine trimsKey_of_effect hk (hL.ordered key) (trimKey_names σ r key) ?_ fun i => ?_
    · rw [heq, KV.effect_append, effect_slotOps_length]
      split_ifs with hlen
      · have hsame : upTo r (L.history key) = L.history key :=
          List.filter_sublist.eq_of_length hlen
        rw [hsame]
        rfl
      · rw [effect_lengthOp]
        rfl
    · rw [heq, KV.effect_append, effect_slotOps, ← slots_spec]
      split_ifs <;> simp [effect_lengthOp_update]

private theorem filterMap_range {α β : Type} (f : α → Option β) (l : List α) :
    (List.range l.length).filterMap (fun i => l[i]?.bind f) = l.filterMap f := by
  induction l with
  | nil => rfl
  | cons a l ih =>
    rw [List.length_cons, List.range_succ_eq_map, List.filterMap_cons, List.filterMap_map,
      List.filterMap_cons]
    have h0 : (a::l)[0]?.bind f = f a := rfl
    have hs : (fun i => (a::l)[i]?.bind f) ∘ Nat.succ = fun i => l[i]?.bind f := rfl
    rw [h0, hs, ih]

private theorem map_upTo (l : History Nat Bytes) :
    (upTo r l).map (fun e => formatUpdate e.1 e.2) =
      l.filterMap fun e => if e.1≤r then some (formatUpdate e.1 e.2) else none := by
  induction l with
  | nil => rfl
  | cons a l ih =>
    by_cases ha : a.1≤r
    · rw [List.filterMap_cons, if_pos ha, ← ih]
      simp [upTo, ha]
    · rw [List.filterMap_cons, if_neg ha, ← ih]
      simp [upTo, ha]

/-- What survives a compaction. -/
theorem HasHistory.validUpdates {l : History Nat Bytes} (hσ : HasHistory σ key l)
    (hb : ∀ e ∈ l, e.1<2^32) :
    validUpdates σ r key l.length = (upTo r l).map fun e => formatUpdate e.1 e.2 := by
  rw [map_upTo, ← filterMap_range, Metashrew.validUpdates]
  apply List.filterMap_congr
  intro i hi
  have hlt := List.mem_range.mp hi
  have he := List.getElem?_eq_getElem hlt
  have hp := parseHeight_formatUpdate (hb _ (List.getElem_mem hlt)) l[i].2
  simp [hσ.update i hlt, he, hp]

/-- A compaction deletes all slots, fills the first ones and ends with the length record. -/
theorem HasHistory.compactionOps {l : History Nat Bytes} (hσ : HasHistory σ key l)
    (hb : ∀ e ∈ l, e.1<2^32) : compactionOps σ r key l.length =
      ((List.range l.length).map (updateKey key)).map .delete ++
        ((((upTo r l).map fun e => formatUpdate e.1 e.2).zipIdx).map fun d =>
          .put (updateKey key d.2) d.1) ++ [lengthOp key (upTo r l).length] := by
  have hdel : (List.range l.length).map (fun i => (.delete (updateKey key i) : Op)) =
      ((List.range l.length).map (updateKey key)).map .delete := by
    simp [Function.comp_def]
  simp only [Metashrew.compactionOps, hσ.validUpdates hb, hdel, List.length_map, lengthOp]

theorem HasHistory.effect_compactionOps_length {l : History Nat Bytes} (hσ : HasHistory σ key l)
    (hb : ∀ e ∈ l, e.1<2^32) : KV.effect (Metashrew.compactionOps σ r key l.length) (lengthKey key) =
      some (Ledger.lengthRecord (upTo r l)) := by
  rw [hσ.compactionOps hb, KV.effect_append, effect_lengthOp]
  rfl

theorem HasHistory.effect_compactionOps_update {l : History Nat Bytes} (hσ : HasHistory σ key l)
    (ho : Ordered l) (hb : ∀ e ∈ l, e.1<2^32) (i : Nat) :
    KV.effect (Metashrew.compactionOps σ r key l.length) (updateKey key i) =
      if i < (upTo r l).length then some (l[i]?.map fun e => formatUpdate e.1 e.2)
      else if i < l.length then some none else none := by
  have hinj : Function.Injective (updateKey key) := fun i j h => (updateKey_inj key i j).mp h
  have hput := KV.effect_puts hinj ((upTo r l).map fun e => formatUpdate e.1 e.2) 0 i
  rw [hσ.compactionOps hb, KV.effect_append, KV.effect_append, effect_lengthOp_update, hput,
    KV.effect_deletes]
  by_cases hi : i<(upTo r l).length
  · have hlt : i<l.length := lt_of_lt_of_le hi (upTo_length_le ..)
    have hu := ho.getElem_upTo hi
    rw [Nat.sub_zero, List.getElem?_map, hu, List.getElem?_eq_getElem hlt]
    simp [hi]
  · rw [if_neg hi]
    by_cases hlt : i<l.length
    · have hmem : updateKey key i ∈ (List.range l.length).map (updateKey key) :=
        List.mem_map_of_mem (List.mem_range.mpr hlt)
      simp [hi, hlt, hmem]
    · simp [hi, updateKey_inj, hlt]

/-- The compaction of the slow rollback leaves the updates up to `r` as well. -/
theorem compactionOps_trims (hσ : Represents σ L) (hL : L.Sound n) (hn : n≤2^32)
    (hk : ¬Reserved key) :
    TrimsKey L r key (compactionOps σ r key (L.history key).length) := by
  have hkey : HasHistory σ key (L.history key) := hσ.holdsHistories.hasHistory (.inl hk)
  have hb : ∀ e ∈ L.history key, e.1<2^32 := fun e he => lt_of_lt_of_le (hL.below key e he) hn
  refine trimsKey_of_effect hk (hL.ordered key) (compactionOps_names σ r key _) ?_ fun i => ?_
  · rw [hkey.effect_compactionOps_length hb]
    rfl
  · rw [hkey.effect_compactionOps_update (hL.ordered key) hb]
    split_ifs with hi hlt
    · rfl
    · rfl
    · rw [List.getElem?_eq_none (by omega)]
      rfl

end Walk

end Metashrew

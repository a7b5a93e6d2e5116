import Metashrew.Ledger.Rollback

namespace Metashrew

open Bytes Durable

/-- The names a flush at height `h` can write. -/
def BatchName (h : Nat) (keyValues : List (Bytes × Bytes)) (name : Bytes) : Prop :=
  (∃ kv ∈ keyValues, KeyName kv.1 name) ∨ name = rootKey h ∨ name = manifestKey h ∨
    name = tipHeightKey

section Batch

variable {db : KeyValueStoreLike} {h : Nat}

private theorem appendUpdate_names {st st' : BatchState} {kv : Bytes × Bytes}
    (hs : appendUpdate db h st kv = .ok st') :
    ∀ op ∈ st'.batch, op ∈ st.batch ∨ KeyName kv.1 op.key := by
  rw [appendUpdate] at hs
  cases hl : currentLength db st kv.1 with
  | error e => rw [hl] at hs; cases hs
  | ok len =>
    rw [hl] at hs
    change ((addU32 len 1).bind fun newLength => _) = _ at hs
    cases ha : addU32 len 1 with
    | error e => rw [ha] at hs; cases hs
    | ok newLength =>
      rw [ha] at hs
      cases hs
      intro op hop
      rcases List.mem_append.mp hop with h | h
      · exact .inl h
      · rcases List.mem_cons.mp h with rfl | h
        · exact .inr (.inr ⟨len,rfl⟩)
        · rw [List.mem_singleton.mp h]
          exact .inr (.inl rfl)

private theorem appendUpdates_names {kvs : List (Bytes × Bytes)} {st st' : BatchState}
    (hs : kvs.foldlM (appendUpdate db h) st = .ok st') :
    ∀ op ∈ st'.batch, op ∈ st.batch ∨ ∃ kv ∈ kvs, KeyName kv.1 op.key := by
  induction kvs generalizing st with
  | nil =>
    cases hs
    exact fun op hop => .inl hop
  | cons kv kvs ih =>
    rw [List.foldlM_cons] at hs
    cases he : appendUpdate db h st kv with
    | error e => rw [he] at hs; cases hs
    | ok st1 =>
      rw [he] at hs
      intro op hop
      rcases ih hs op hop with h1 | ⟨kv',hkv,hname⟩
      · rcases appendUpdate_names he op h1 with h2 | h2
        · exact .inl h2
        · exact .inr ⟨kv,by simp,h2⟩
      · exact .inr ⟨kv',by simp [hkv],hname⟩

/-- A batch touches the records of its keys and three records of its height. -/
theorem build_names {kvs : List (Bytes × Bytes)} {root : Bytes} {ops : List Op}
    (hb : buildStateRootBatchUnwritten db h kvs = .ok (root,ops)) :
    ∀ op ∈ ops, BatchName h kvs op.key := by
  rw [buildStateRootBatchUnwritten] at hb
  cases hf : kvs.foldlM (appendUpdate db h) ⟨[],∅⟩ with
  | error e => rw [hf] at hb; cases hb
  | ok st =>
    rw [hf] at hb
    cases hb
    intro op hop
    rcases List.mem_append.mp hop with hop | hop
    · rcases List.mem_append.mp hop with hop | hop
      · rcases List.mem_append.mp hop with hop | hop
        · rcases appendUpdates_names hf op hop with h1 | h1
          · cases h1
          · exact .inl h1
        · rw [List.mem_singleton.mp hop]
          exact .inr (.inl rfl)
      · rw [manifestOps] at hop
        split_ifs at hop
        · cases hop
        · rw [List.mem_singleton.mp hop]
          exact .inr (.inr (.inl rfl))
    · rw [List.mem_singleton.mp hop]
      exact .inr (.inr (.inr rfl))

end Batch

section Block

variable {σ σ' : Store} {h : Nat} {b : Block}

/-- The committed block hash is in the store. -/
theorem commitBlock_hash (hc : commitBlock σ h b = .ok σ') :
    KV.get σ' (blockHashKey h) = some b.hash := by
  obtain ⟨root,ops,_,_,rfl⟩ := commitBlock_cases hc
  have h1 : rootKey h ≠ blockHashKey h :=
    Record.name_ne (r := .root h) (s := .update blockHashBase h) (by simp)
  have h2 : indexedHeightKey ≠ blockHashKey h :=
    Record.name_ne (r := .indexedHeight) (s := .update blockHashBase h) (by simp)
  rw [KV.get_write, commitOps, KV.effect_append]
  simp [KV.effect, KV.Op.key, KV.Op.value, h1, h2]

/-- So is the pointer. -/
theorem commitBlock_indexed (hc : commitBlock σ h b = .ok σ') :
    KV.get σ' indexedHeightKey = some (u32le h) := by
  obtain ⟨root,ops,_,_,rfl⟩ := commitBlock_cases hc
  rw [KV.get_write, commitOps, KV.effect_append]
  rfl

/-- A record that neither the flush nor the commit owns is unchanged. -/
theorem commitBlock_get (hc : commitBlock σ h b = .ok σ') {name : Bytes}
    (hn : ¬BatchName h b.flush.list name) (hh : name ≠ blockHashKey h)
    (hi : name ≠ indexedHeightKey) : KV.get σ' name = KV.get σ name := by
  obtain ⟨root,ops,hb,_,rfl⟩ := commitBlock_cases hc
  refine KV.get_write_of_not_mem fun op hop he => ?_
  rw [commitOps, List.mem_append] at hop
  rcases hop with hop | hop
  · exact hn (he ▸ build_names hb op hop)
  · simp only [List.mem_cons, List.not_mem_nil, or_false] at hop
    rcases hop with rfl | rfl | rfl
    · exact hh he.symm
    · exact hn (he ▸ .inr (.inl rfl))
    · exact hi he.symm

/-- A key that no block writes has no length record. -/
theorem commitBlocks_length {start : Nat} {blocks : List Block} {key : Bytes}
    (hw : ∀ b ∈ blocks, ∀ kv ∈ b.flush.list, kv.1 ≠ key) (hc : commitBlocks start σ blocks = .ok σ') :
    KV.get σ' (lengthKey key) = KV.get σ (lengthKey key) := by
  induction blocks generalizing σ start with
  | nil =>
    cases hc
    rfl
  | cons b bs ih =>
    rw [commitBlocks] at hc
    cases hb : commitBlock σ start b with
    | error e => rw [hb] at hc; cases hc
    | ok σ1 =>
      rw [hb] at hc
      rw [ih (fun c hmem => hw c (by simp [hmem])) hc]
      refine commitBlock_get hb ?_ ?_ ?_
      · rintro (⟨kv,hkv,hname⟩ | hname | hname | hname)
        · refine hw b (by simp) kv hkv (KeyName.unique (x := .length key) hname (.inl rfl))
        · exact Record.name_ne (r := .length key) (s := .root start) (by simp) hname
        · exact Record.name_ne (r := .length key) (s := .update manifestBase start) (by simp) hname
        · exact Record.name_ne (r := .length key) (s := .tipHeight) (by simp) hname
      · exact Record.name_ne (r := .length key) (s := .update blockHashBase start) (by simp)
      · exact Record.name_ne (r := .length key) (s := .indexedHeight) (by simp)

theorem commitBlocks_append (start : Nat) (σ : Store) (xs ys : List Block) :
    commitBlocks start σ (xs ++ ys) =
      (commitBlocks start σ xs).bind fun τ => commitBlocks (start+xs.length) τ ys := by
  induction xs generalizing start σ with
  | nil => rfl
  | cons b bs ih =>
    have hlen : start+(b::bs).length = start+1+bs.length := by simp; omega
    rw [List.cons_append, commitBlocks, commitBlocks, hlen]
    cases hb : commitBlock σ start b with
    | error e => rfl
    | ok σ1 => exact ih (start+1) σ1

end Block

end Metashrew

import Metashrew.Sync.Heal

namespace Metashrew

open Bytes Durable

/-- A batch that touches no block hash and no length record of a reserved key. -/
def CleanBatch (ops : List Op) : Prop :=
  ∀ op ∈ ops, (∀ h, op.key ≠ blockHashKey h) ∧ ∀ key, Reserved key → op.key ≠ lengthKey key

/-- One call of the engine on its storage. -/
inductive StorageCall where
  | commit (height : Nat) (blockHash stateRoot : Bytes) (batchData : List Op)
  | rollback (height : Nat)
  | heal (node : BitcoinNodeAdapter) (config : SyncConfig)

/-- What a run has committed: whether anything ever was, the heights not rolled back since, in
order, and the tip. -/
structure Log where
  begun : Bool
  heights : List Nat
  tip : Nat

namespace Log

def empty : Log := ⟨false,[],0⟩

def commit (l : Log) (h : Nat) : Log := ⟨true,l.heights ++ [h],h⟩

def rollback (l : Log) (r : Nat) : Log := ⟨l.begun,l.heights.filter (· ≤ r),min l.tip r⟩

end Log

/-- The runs of successful calls that meet `P`. Heights are `u32`. -/
inductive Runs (P : Store → StorageCall → Prop) : Store → Log → Prop where
  | empty : Runs P ∅ .empty
  | commit {σ σ' : Store} {l : Log} {h : Nat} {blockHash stateRoot : Bytes} {ops : List Op} :
      Runs P σ l → P σ (.commit h blockHash stateRoot ops) → h<2^32 →
      (commitAtomic h blockHash stateRoot ops).exec σ = .ok ((),σ') → Runs P σ' (l.commit h)
  | rollback {σ σ' : Store} {l : Log} {r : Nat} :
      Runs P σ l → P σ (.rollback r) → r<2^32 →
      (rollbackToHeight r).exec σ = .ok ((),σ') → Runs P σ' (l.rollback r)
  | heal {σ σ' : Store} {l : Log} {node : BitcoinNodeAdapter} {config : SyncConfig} {s : Nat}
      {o : StartupHealOutcome} :
      Runs P σ l → P σ (.heal node config) →
      (healPointerDivergenceAtStartup node config).exec σ = .ok ((s,o),σ') →
      Runs P σ' (l.rollback s)

/-- Calls that keep the pointer at the last committed block: clean batches below the last `u32`, and
rollbacks that go down. -/
def Orderly (σ : Store) : StorageCall → Prop
  | .commit h _ _ ops => h+1<2^32 ∧ CleanBatch ops
  | .rollback r => r ≤ getIndexedHeight σ
  | .heal _ _ => True

theorem Runs.mono {P Q : Store → StorageCall → Prop} (hPQ : ∀ σ c, P σ c → Q σ c) {σ : Store} {l : Log}
    (h : Runs P σ l) : Runs Q σ l := by
  induction h with
  | empty => exact .empty
  | commit _ hp hh hc ih => exact .commit ih (hPQ _ _ hp) hh hc
  | rollback _ hp hr hc ih => exact .rollback ih (hPQ _ _ hp) hr hc
  | heal _ hp hc ih => exact .heal ih (hPQ _ _ hp) hc

section Calls

variable {σ σ' : Store} {h r : Nat} {blockHash stateRoot : Bytes} {ops : List Op}

/-- When a commit is accepted. -/
theorem commitAtomic_accepts (σ : Store) (h : Nat) (blockHash stateRoot : Bytes) (ops : List Op) :
    (∃ σ', (commitAtomic h blockHash stateRoot ops).exec σ = .ok ((),σ')) ↔
      isFreshDb σ = true ∨ h = saturatingSucc (getIndexedHeight σ) := by
  constructor
  · intro ⟨σ',hc⟩
    exact (commitAtomic_cases hc).1
  · intro hacc
    exact ⟨_,Prog.exec_ok (commitAtomic_run hacc blockHash stateRoot ops)⟩

/-- A rejected commit writes nothing. -/
theorem commitAtomic_rejects {e : Fault}
    (hc : (commitAtomic h blockHash stateRoot ops).exec σ = .error e) :
    (commitAtomic h blockHash stateRoot ops).finalState σ = σ := by
  have ha := commitAtomic_eq σ h blockHash stateRoot ops
  split_ifs at ha with hrej
  · rw [Prog.finalState_eq ha]
    rfl
  · rw [Prog.exec_ok ha] at hc
    cases hc

theorem commitOps_indexed (hh : h<2^32) :
    getIndexedHeight (KV.write σ (commitOps h blockHash stateRoot ops)) = h := by
  have hget : KV.get (KV.write σ (commitOps h blockHash stateRoot ops)) indexedHeightKey =
      some (u32le h) := by
    rw [KV.get_write, commitOps, KV.effect_append]
    rfl
  rw [getIndexedHeight, readPointer, hget, Option.bind_some, readU32le_u32le hh, Option.getD_some]

/-- The hash is put after the batch, so no batch can hide it. -/
theorem commitOps_hash_self :
    getBlockHash (KV.write σ (commitOps h blockHash stateRoot ops)) h = some blockHash := by
  have h1 : rootKey h ≠ blockHashKey h :=
    Record.name_ne (r := .root h) (s := .update blockHashBase h) (by simp)
  have h2 : indexedHeightKey ≠ blockHashKey h :=
    Record.name_ne (r := .indexedHeight) (s := .update blockHashBase h) (by simp)
  rw [getBlockHash, KV.get_write, commitOps, KV.effect_append]
  simp [KV.effect, KV.Op.key, KV.Op.value, h1, h2]

theorem commitOps_hash (ho : CleanBatch ops) (k : Nat) :
    getBlockHash (KV.write σ (commitOps h blockHash stateRoot ops)) k =
      if k = h then some blockHash else getBlockHash σ k := by
  have h1 : rootKey h ≠ blockHashKey k :=
    Record.name_ne (r := .root h) (s := .update blockHashBase k) (by simp)
  have h2 : indexedHeightKey ≠ blockHashKey k :=
    Record.name_ne (r := .indexedHeight) (s := .update blockHashBase k) (by simp)
  have h3 : blockHashKey h = blockHashKey k ↔ k = h := by
    rw [blockHashKey_eq, blockHashKey_eq]
    have hinj := Record.name_inj (r := .update blockHashBase h) (s := .update blockHashBase k)
    simp only [Record.name, Record.update.injEq, true_and] at hinj
    rw [hinj, eq_comm]
  have h0 : KV.effect ops (blockHashKey k) = none := KV.effect_eq_none fun op hop => (ho op hop).1 k
  rw [getBlockHash, getBlockHash, KV.get_write, commitOps, KV.effect_append, h0]
  by_cases hk : k=h
  · subst hk
    simp [KV.effect, KV.Op.key, KV.Op.value, h1, h2]
  · simp [KV.effect, KV.Op.key, h1, h2, h3, hk]

theorem commitOps_bare (hσ : Bare Reserved σ) (ho : CleanBatch ops) :
    Bare Reserved (KV.write σ (commitOps h blockHash stateRoot ops)) := by
  intro key hk
  rw [KV.get_write_of_not_mem, hσ key hk]
  intro op hop
  rw [commitOps, List.mem_append] at hop
  rcases hop with hop | hop
  · exact (ho op hop).2 key hk
  · simp only [List.mem_cons, List.not_mem_nil, or_false] at hop
    rcases hop with rfl | rfl | rfl
    · exact Record.name_ne (r := .update blockHashBase h) (s := .length key) (by simp)
    · exact Record.name_ne (r := .root h) (s := .length key) (by simp)
    · exact Record.name_ne (r := .indexedHeight) (s := .length key) (by simp)

/-- The batch of a flush of plain keys is clean. -/
theorem build_clean {db : KeyValueStoreLike} {kvs : List (Bytes × Bytes)} {root : Bytes}
    (hb : buildStateRootBatchUnwritten db h kvs = .ok (root,ops)) (hp : ∀ kv ∈ kvs, ¬Reserved kv.1) :
    CleanBatch ops := by
  intro op hop
  have hname := build_names hb op hop
  constructor
  · intro k hk
    rw [hk] at hname
    rcases hname with ⟨kv,hkv,hn⟩ | hn | hn | hn
    · apply hp kv hkv
      rw [KeyName.unique (x := .update blockHashBase k) hn (.inr ⟨k,rfl⟩)]
      exact blockHashBase_reserved
    · exact Record.name_ne (r := .update blockHashBase k) (s := .root h) (by simp) hn
    · refine Record.name_ne (r := .update blockHashBase k) (s := .update manifestBase h) ?_ hn
      intro he
      exact manifestBase_ne_blockHashBase (Record.update.inj he).1.symm
    · exact Record.name_ne (r := .update blockHashBase k) (s := .tipHeight) (by simp) hn
  · intro key hr hk
    rw [hk] at hname
    rcases hname with ⟨kv,hkv,hn⟩ | hn | hn | hn
    · apply hp kv hkv
      rwa [KeyName.unique (x := .length key) hn (.inl rfl)]
    · exact Record.name_ne (r := .length key) (s := .root h) (by simp) hn
    · exact Record.name_ne (r := .length key) (s := .update manifestBase h) (by simp) hn
    · exact Record.name_ne (r := .length key) (s := .tipHeight) (by simp) hn

/-- A committed block of plain keys is a call with a clean batch. -/
theorem commitBlock_call {b : Block} (hp : ∀ kv ∈ b.flush.list, ¬Reserved kv.1)
    (hc : commitBlock σ h b = .ok σ') : ∃ ops, CleanBatch ops ∧
      (commitAtomic h b.hash b.stateRoot ops).exec σ = .ok ((),σ') := by
  obtain ⟨root,ops,hb,hacc,rfl⟩ := commitBlock_cases hc
  exact ⟨ops,build_clean hb hp,Prog.exec_ok (commitAtomic_run hacc b.hash b.stateRoot ops)⟩

/-- What a complete rollback leaves of the records the engine relies on. -/
theorem rollbackToHeight_keeps (hσ : Bare Reserved σ) (hr : r<2^32)
    (hc : (rollbackToHeight r).exec σ = .ok ((),σ')) :
    getIndexedHeight σ' = r ∧ Bare Reserved σ' ∧
      ∀ h ≤ r, getBlockHash σ' h = getBlockHash σ h := by
  obtain ⟨hi,hkeep⟩ := rollbackToHeight_foreign hσ hc
  refine ⟨?_,fun key hk => ?_,fun h hle => ?_⟩
  · rw [getIndexedHeight, readPointer, hi, Option.bind_some, readU32le_u32le hr, Option.getD_some]
  · rw [hkeep _ (foreign_lengthKey hk), hσ key hk]
    · intro hrec
      have hrec' := (recordOf_iff (x := .length key)).mp hrec
      simp at hrec'
    · exact Record.name_ne (r := .length key) (s := .indexedHeight) (by simp)
  · refine hkeep _ (foreign_blockHashKey blockHashBase_reserved h) ?_ ?_
    · intro hrec
      obtain ⟨i,hi,hx⟩ := (recordOf_iff (x := .update blockHashBase h)).mp hrec
      simp only [Record.update.injEq, reduceCtorEq, true_and, false_or] at hx
      rcases hx with ⟨hbase,_⟩ | rfl
      · exact manifestBase_ne_blockHashBase hbase.symm
      · omega
    · exact Record.name_ne (r := .update blockHashBase h) (s := .indexedHeight) (by simp)

theorem rollbackToHeight_done (hσ : Bare Reserved σ) (r : Nat) :
    ∃ σ', (rollbackToHeight r).exec σ = .ok ((),σ') :=
  rollbackToHeight_total hσ manifestBase_reserved r

/-- The heal is a rollback to its height, as far as the engine relies on the records. -/
theorem heal_keeps {node : BitcoinNodeAdapter} {config : SyncConfig} {s : Nat}
    {o : StartupHealOutcome} (hσ : Bare Reserved σ) (hi : getIndexedHeight σ<2^32)
    (hc : (healPointerDivergenceAtStartup node config).exec σ = .ok ((s,o),σ')) :
    s ≤ getIndexedHeight σ ∧ getIndexedHeight σ' = s ∧ Bare Reserved σ' ∧
      ∀ h ≤ s, getBlockHash σ' h = getBlockHash σ h := by
  obtain ⟨_,hle,⟨rfl,hs,_⟩ | hheal⟩ := heal_cases hc
  · exact ⟨hle,hs.symm,hσ,fun _ _ => rfl⟩
  · refine ⟨hle,?_⟩
    obtain ⟨rfl,hs,_⟩ | ⟨τ,hτ,rfl⟩ := healPointersAtomic_cases hle hheal
    · exact ⟨hs.symm,hσ,fun _ _ => rfl⟩
    · have hbase : Bare Reserved τ ∧ ∀ h ≤ s, getBlockHash τ h = getBlockHash σ h := by
        rcases hτ with ⟨rfl,_⟩ | ⟨_,hroll⟩
        · exact ⟨hσ,fun _ _ => rfl⟩
        · exact (rollbackToHeight_keeps hσ (lt_of_le_of_lt hle hi) hroll).2
      refine ⟨(pointers_healed τ (lt_of_le_of_lt hle hi)).1,fun key hk => ?_,fun h hh => ?_⟩
      · exact (get_healed τ s (x := .length key) (by simp) (by simp)).trans (hbase.1 key hk)
      · exact (get_healed τ s (x := .update blockHashBase h) (by simp) (by simp)).trans (hbase.2 h hh)

end Calls

end Metashrew

import Metashrew.Guest.Atomic
import Metashrew.Pipeline.Batches

namespace Metashrew

open Bytes Durable KV

/-- Builds the batch of the flushed pairs and commits it. -/
def commitPairs (σ : Store) (height : Nat) (blockHash stateRoot : Bytes)
    (keyValues : List (Bytes × Bytes)) : Except Fault Store := do
  let built ← buildStateRootBatchUnwritten (rocksDB σ) height keyValues
  let done ← (commitAtomic height blockHash stateRoot built.2).exec σ
  return done.2

section Batch

variable {σ : Store} {height : Nat} {done done' kvs kvs' : List (Bytes × Bytes)}

/-- Pairs of one key carry one value. -/
def Functional (kvs : List (Bytes × Bytes)) : Prop :=
  ∀ key value value', (key,value) ∈ kvs → (key,value') ∈ kvs → value = value'

theorem lengthAfter_congr (h : done.Perm done') (key : Bytes) :
    lengthAfter σ done key = lengthAfter σ done' key := by
  rw [lengthAfter, lengthAfter, (h.filter _).length_eq]

theorem appendOps_congr (h : done.Perm done') (kvs : List (Bytes × Bytes)) :
    appendOps σ height done kvs = appendOps σ height done' kvs := by
  induction kvs generalizing done done' with
  | nil => rfl
  | cons kv kvs ih => rw [appendOps, appendOps, lengthAfter_congr h, ih (h.append_right [kv])]

/-- The two records of one pair. -/
def pairOps (σ : Store) (height : Nat) (done : List (Bytes × Bytes)) (kv : Bytes × Bytes) : List Op :=
  [.put (updateKey kv.1 (lengthAfter σ done kv.1)) (formatUpdate height kv.2),
    .put (lengthKey kv.1) (decimal (lengthAfter σ done kv.1+1))]

theorem appendOps_cons (kv : Bytes × Bytes) (kvs : List (Bytes × Bytes)) :
    appendOps σ height done (kv::kvs) =
      pairOps σ height done kv ++ appendOps σ height (done ++ [kv]) kvs := rfl

theorem effect_pairOps_eq_none {kv : Bytes × Bytes} {name : Bytes}
    (hu : ∀ i, updateKey kv.1 i ≠ name) (hl : lengthKey kv.1 ≠ name) :
    effect (pairOps σ height done kv) name = none := by
  simp [pairOps, effect, Op.key, hu, hl]

/-- Pairs of two keys share no record. -/
theorem effect_pairOps_or {kv kv' : Bytes × Bytes} (h : kv.1 ≠ kv'.1)
    (done done' : List (Bytes × Bytes)) (name : Bytes) :
    effect (pairOps σ height done kv) name = none ∨
      effect (pairOps σ height done' kv') name = none := by
  by_cases hu : ∃ i, updateKey kv.1 i = name
  · obtain ⟨i,rfl⟩ := hu
    right
    apply effect_pairOps_eq_none
    · intro j
      exact Record.name_ne (r := .update kv'.1 j) (s := .update kv.1 i) (by simp [Ne.symm h])
    · exact Record.name_ne (r := .length kv'.1) (s := .update kv.1 i) (by simp)
  · by_cases hl : lengthKey kv.1 = name
    · subst hl
      right
      apply effect_pairOps_eq_none
      · intro j
        exact Record.name_ne (r := .update kv'.1 j) (s := .length kv.1) (by simp)
      · exact Record.name_ne (r := .length kv'.1) (s := .length kv.1) (by simp [Ne.symm h])
    · left
      push Not at hu
      exact effect_pairOps_eq_none hu hl

/-- Reordered pairs put the same records. -/
theorem effect_appendOps_perm (h : kvs.Perm kvs') (hf : Functional kvs)
    (done : List (Bytes × Bytes)) (name : Bytes) :
    effect (appendOps σ height done kvs) name = effect (appendOps σ height done kvs') name := by
  induction h generalizing done with
  | nil => rfl
  | @cons kv kvs kvs' _ ih =>
    have hrest : Functional kvs := fun key value value' hv hv' =>
      hf key value value' (List.mem_cons_of_mem _ hv) (List.mem_cons_of_mem _ hv')
    rw [appendOps_cons, appendOps_cons, effect_append, effect_append, ih hrest]
  | swap x y kvs =>
    by_cases he : x.1 = y.1
    · -- a repeated pair
      have hv : x.2 = y.2 := hf x.1 x.2 y.2 (by simp) (by simp [he])
      have hxy : x = y := Prod.ext he hv
      rw [hxy]
    · have hx : pairOps σ height (done ++ [y]) x = pairOps σ height done x := by
        rw [pairOps, lengthAfter_concat, if_neg (Ne.symm he)]
        rfl
      have hy : pairOps σ height (done ++ [x]) y = pairOps σ height done y := by
        rw [pairOps, lengthAfter_concat, if_neg he]
        rfl
      have hd : (done ++ [y] ++ [x]).Perm (done ++ [x] ++ [y]) := by
        rw [List.append_assoc, List.append_assoc]
        exact (List.Perm.swap x y []).append_left done
      simp only [appendOps_cons, hx, hy, appendOps_congr hd, effect_append]
      rcases effect_pairOps_or he done done name with hn | hn <;> rw [hn] <;> simp
  | trans hp _ ih ih' =>
    have hf' : Functional _ := fun key value value' hv hv' =>
      hf key value value' (hp.mem_iff.mpr hv) (hp.mem_iff.mpr hv')
    rw [ih hf, ih' hf']

/-- No key gets more updates than its length record can count. -/
def Fits (σ : Store) (done kvs : List (Bytes × Bytes)) : Prop :=
  ∀ key ∈ kvs.map Prod.fst, lengthAfter σ (done ++ kvs) key<2^32

theorem lengthAfter_append_of_not_mem {key : Bytes} (h : key ∉ kvs.map Prod.fst) :
    lengthAfter σ (done ++ kvs) key = lengthAfter σ done key := by
  have hf : (kvs.filter fun kv => kv.1 = key) = [] := by
    rw [List.filter_eq_nil_iff]
    intro kv hkv hk
    rw [decide_eq_true_eq] at hk
    exact h (hk ▸ List.mem_map_of_mem hkv)
  rw [lengthAfter, lengthAfter, List.filter_append, hf, List.append_nil]

theorem lengthAfter_le_append (σ : Store) (done kvs : List (Bytes × Bytes)) (key : Bytes) :
    lengthAfter σ done key ≤ lengthAfter σ (done ++ kvs) key := by
  rw [lengthAfter, lengthAfter, List.filter_append, List.length_append]
  omega

theorem fits_cons (kv : Bytes × Bytes) :
    Fits σ done (kv::kvs) ↔ lengthAfter σ done kv.1+1<2^32 ∧ Fits σ (done ++ [kv]) kvs := by
  have happ : done ++ kv::kvs = done ++ [kv] ++ kvs := by simp
  have hlen : lengthAfter σ (done ++ [kv]) kv.1 = lengthAfter σ done kv.1+1 := by
    rw [lengthAfter_concat, if_pos rfl]
  rw [Fits, Fits, happ]
  constructor
  · intro h
    refine ⟨?_,fun key hk => h key (List.mem_cons_of_mem _ hk)⟩
    have hle := lengthAfter_le_append σ (done ++ [kv]) kvs kv.1
    have hlt := h kv.1 List.mem_cons_self
    omega
  · intro h key hk
    by_cases hm : key ∈ kvs.map Prod.fst
    · exact h.2 key hm
    · rw [List.map_cons, List.mem_cons, or_iff_left hm] at hk
      rw [lengthAfter_append_of_not_mem hm, hk, hlen]
      exact h.1

theorem fits_perm (h : kvs.Perm kvs') : Fits σ [] kvs ↔ Fits σ [] kvs' := by
  have hm : ∀ key, key ∈ kvs.map Prod.fst ↔ key ∈ kvs'.map Prod.fst :=
    fun key => (h.map Prod.fst).mem_iff
  rw [Fits, Fits]
  simp only [hm, List.nil_append, lengthAfter_congr h]

/-- The loop over the pairs overflows unless they fit. -/
theorem KnowsLengths.appendAll_eq {st : BatchState} (h : KnowsLengths σ done st) (height : Nat)
    (kvs : List (Bytes × Bytes)) :
    (Fits σ done kvs ∧ ∃ st', kvs.foldlM (appendUpdate (rocksDB σ) height) st = .ok st') ∨
      ¬Fits σ done kvs ∧ kvs.foldlM (appendUpdate (rocksDB σ) height) st =
        .error (.panic "attempt to add with overflow") := by
  induction kvs generalizing done st with
  | nil =>
    refine .inl ⟨?_,st,rfl⟩
    intro key hk
    cases hk
  | cons kv kvs ih =>
    rw [List.foldlM_cons, fits_cons]
    have heq := h.appendUpdate_eq height kv
    rw [addU32] at heq
    split_ifs at heq with hlt
    · rw [heq]
      rcases ih (h.append heq).1 with ⟨hrest,st',hfold⟩ | ⟨hrest,hfold⟩
      · exact .inl ⟨⟨hlt,hrest⟩,st',hfold⟩
      · exact .inr ⟨fun hc => hrest hc.2,hfold⟩
    · rw [heq]
      exact .inr ⟨fun hc => hlt hc.1,rfl⟩

/-- Batches that say the same of every name commit the same store. -/
theorem commitAtomic_congr {ops ops' : List Op} (h : ∀ name, effect ops name = effect ops' name)
    (blockHash stateRoot : Bytes) :
    (commitAtomic height blockHash stateRoot ops).exec σ =
      (commitAtomic height blockHash stateRoot ops').exec σ := by
  have hw : KV.write σ (commitOps height blockHash stateRoot ops) =
      KV.write σ (commitOps height blockHash stateRoot ops') := by
    apply Std.ExtTreeMap.ext_getElem?
    intro name
    show KV.get _ name = KV.get _ name
    rw [get_write, get_write, commitOps, commitOps, effect_append, effect_append, h name]
  have ha := commitAtomic_eq σ height blockHash stateRoot ops
  have ha' := commitAtomic_eq σ height blockHash stateRoot ops'
  split_ifs at ha ha' with hrej
  · rw [Prog.exec_error ha, Prog.exec_error ha']
  · rw [Prog.exec_ok ha, Prog.exec_ok ha', hw]

/-- Reordered pairs commit the same store, or fail alike. -/
theorem commitPairs_perm (h : kvs.Perm kvs') (hf : Functional kvs) (blockHash stateRoot : Bytes) :
    commitPairs σ height blockHash stateRoot kvs = commitPairs σ height blockHash stateRoot kvs' := by
  have hknows : KnowsLengths σ [] ⟨[],∅⟩ := knowsLengths_nil
  have hm : manifestOps height kvs = manifestOps height kvs' := by
    have hkeys : sortedKeys (kvs.map Prod.fst) = sortedKeys (kvs'.map Prod.fst) :=
      sortedKeys_congr fun key => (h.map Prod.fst).mem_iff
    have hnil : kvs = [] ↔ kvs' = [] := by
      rw [← List.length_eq_zero_iff, h.length_eq, List.length_eq_zero_iff]
    rw [manifestOps, manifestOps, hkeys]
    exact if_congr hnil rfl rfl
  rw [commitPairs, commitPairs, buildStateRootBatchUnwritten, buildStateRootBatchUnwritten]
  have hpairs := hknows.appendAll_eq height kvs
  have hpairs' := hknows.appendAll_eq height kvs'
  rw [← fits_perm h] at hpairs'
  rcases hpairs with ⟨hfit,st,hst⟩ | ⟨hfit,hst⟩
  · rcases hpairs' with ⟨_,st',hst'⟩ | ⟨hno,_⟩
    · have hbatch := hknows.appendAll hst
      have hbatch' := hknows.appendAll hst'
      rw [hst, hst']
      show (((commitAtomic height blockHash stateRoot _).exec σ).bind fun done => Except.ok done.2) =
        ((commitAtomic height blockHash stateRoot _).exec σ).bind fun done => Except.ok done.2
      rw [commitAtomic_congr]
      intro name
      simp only [hbatch, hbatch', hm, effect_append, effect_appendOps_perm h hf]
    · exact absurd hfit hno
  · rcases hpairs' with ⟨hyes,_⟩ | ⟨_,hst'⟩
    · exact absurd hyes hfit
    · rw [hst, hst']
      rfl

end Batch

namespace GuestMemory

variable {m m' : GuestMemory}

/-- Two runs have cached the same values and set the same keys, each as often. -/
structure SameSets (m m' : GuestMemory) : Prop where
  cache : m.cache = m'.cache
  toFlush : m.toFlush.Perm m'.toFlush

theorem SameSets.set (h : m.SameSets m') (key value : Bytes) :
    (m.set key value).SameSets (m'.set key value) where
  cache := by rw [GuestMemory.set, GuestMemory.set, h.cache]
  toFlush := h.toFlush.append_right [key]

theorem SameSets.get (h : m.SameSets m') (host : Bytes → Bytes) (key : Bytes) :
    (m.get host key).SameSets (m'.get host key) := by
  rw [GuestMemory.get, GuestMemory.get, h.cache]
  cases KV.get m'.cache key with
  | some value => exact h
  | none => exact ⟨rfl,h.toFlush⟩

theorem setAll_eq (m : GuestMemory) (entries : List (Bytes × Bytes)) :
    m.setAll entries = ⟨KV.write m.cache (puts entries),m.toFlush ++ entries.map Prod.fst⟩ := by
  induction entries generalizing m with
  | nil => simp [setAll, puts]
  | cons e entries ih =>
    show (m.set e.1 e.2).setAll entries = _
    rw [ih, GuestMemory.set]
    simp only [List.append_assoc, List.map_cons, List.cons_append, List.nil_append]
    rfl

/-- All entries of one map, visited in two orders. -/
theorem SameSets.setAll (h : m.SameSets m') (order order' : VisitOrder Bytes Bytes) (map : Store) :
    (m.setAll (order.visit map)).SameSets (m'.setAll (order'.visit map)) := by
  rw [setAll_eq, setAll_eq]
  refine ⟨?_,?_⟩
  · show KV.write _ _ = KV.write _ _
    rw [h.cache]
    exact VisitOrder.write_visit order order' m'.cache map
  · have hvisit := (order.perm map).trans (order'.perm map).symm
    exact h.toFlush.append (hvisit.map Prod.fst)

theorem flushed_eq (m : GuestMemory) :
    m.flushed = if ∀ key ∈ m.toFlush, KV.get m.cache key ≠ none then
      some (m.toFlush.map fun key => (key,(KV.get m.cache key).getD [])) else none := by
  rw [flushed]
  induction m.toFlush with
  | nil => rfl
  | cons key keys ih =>
    rw [List.mapM_cons, ih]
    cases hk : KV.get m.cache key with
    | none => simp [hk]
    | some value =>
      simp only [List.forall_mem_cons, hk]
      split_ifs <;> simp_all

/-- The flushed pairs of the two runs are reordered, and each key has one value. -/
theorem SameSets.flushed (h : m.SameSets m') :
    m.flushed = none ∧ m'.flushed = none ∨
      ∃ kvs kvs', m.flushed = some kvs ∧ m'.flushed = some kvs' ∧ kvs.Perm kvs' ∧
        Functional kvs := by
  rw [flushed_eq, flushed_eq, h.cache]
  have hall : (∀ key ∈ m.toFlush, KV.get m'.cache key ≠ none) ↔
      ∀ key ∈ m'.toFlush, KV.get m'.cache key ≠ none := by
    simp only [h.toFlush.mem_iff]
  by_cases hc : ∀ key ∈ m'.toFlush, KV.get m'.cache key ≠ none
  · rw [if_pos hc, if_pos (hall.mpr hc)]
    refine .inr ⟨_,_,rfl,rfl,h.toFlush.map _,?_⟩
    intro key value value' hv hv'
    simp only [List.mem_map, Prod.mk.injEq] at hv hv'
    obtain ⟨k,_,rfl,rfl⟩ := hv
    obtain ⟨k',_,rfl,rfl⟩ := hv'
    rfl
  · rw [if_neg hc, if_neg (mt hall.mp hc)]
    exact .inl ⟨rfl,rfl⟩

end GuestMemory

/-- The same operation, but for the order in which a commit visits its map. -/
inductive AtomicOp.SameButOrder : AtomicOp → AtomicOp → Prop where
  | refl (op : AtomicOp) : SameButOrder op op
  | commit (order order' : VisitOrder Bytes Bytes) : SameButOrder (.commit order) (.commit order')

/-- The checkpoints of every pointer that the guest has wrapped, and its memory. -/
structure GuestPointers where
  checkpoints : Nat → List Store
  memory : GuestMemory

namespace GuestPointers

def default (memory : GuestMemory) : GuestPointers := ⟨fun _ => [∅],memory⟩

/-- One operation on the pointer numbered `i`. -/
def step (host : Bytes → Bytes) (s : GuestPointers) (i : Nat) (op : AtomicOp) : Option GuestPointers :=
  (AtomicPointer.step host ⟨s.checkpoints i,s.memory⟩ op).map fun p =>
    ⟨Function.update s.checkpoints i p.checkpoints,p.memory⟩

def run (host : Bytes → Bytes) : GuestPointers → List (Nat × AtomicOp) → Option GuestPointers
  | s, [] => some s
  | s, (i,op)::ops => (s.step host i op).bind fun s' => run host s' ops

/-- The store after the block of a guest that performs the operations and flushes; none when the
guest panics. -/
def blockStore (host : Bytes → Bytes) (memory : GuestMemory) (σ : Store) (height : Nat)
    (blockHash stateRoot : Bytes) (ops : List (Nat × AtomicOp)) : Option (Except Fault Store) := do
  let s ← run host (default memory) ops
  let keyValues ← s.memory.flushed
  return commitPairs σ height blockHash stateRoot keyValues

/-- Two runs are alike but for the order of the keys set. -/
structure Same (s s' : GuestPointers) : Prop where
  checkpoints : s.checkpoints = s'.checkpoints
  memory : s.memory.SameSets s'.memory

end GuestPointers

/-- A step of one pointer keeps the two runs alike. -/
theorem AtomicPointer.step_same {host : Bytes → Bytes} {checkpoints : List Store}
    {m m' : GuestMemory} {op op' : AtomicOp} (h : m.SameSets m') (hop : op.SameButOrder op') :
    step host ⟨checkpoints,m⟩ op = none ∧ step host ⟨checkpoints,m'⟩ op' = none ∨
      ∃ next n n', step host ⟨checkpoints,m⟩ op = some ⟨next,n⟩ ∧
        step host ⟨checkpoints,m'⟩ op' = some ⟨next,n'⟩ ∧ n.SameSets n' := by
  cases hop with
  | commit order order' =>
    match checkpoints with
    | [] => exact .inl ⟨rfl,rfl⟩
    | [map] => exact .inr ⟨_,_,_,rfl,rfl,h.setAll order order' map⟩
    | map::target::rest =>
      refine .inr ⟨pipeTo order map target::rest,m,m',rfl,?_,h⟩
      rw [pipeTo, VisitOrder.write_visit order order']
      rfl
  | refl =>
    cases op with
    | set key value =>
      cases checkpoints with
      | nil => exact .inl ⟨rfl,rfl⟩
      | cons map outer => exact .inr ⟨_,_,_,rfl,rfl,h⟩
    | get key =>
      right
      rw [step, step, AtomicPointer.get, AtomicPointer.get]
      dsimp only
      cases checkpoints.findSome? fun map => KV.get map key with
      | some value => exact ⟨_,_,_,rfl,rfl,h⟩
      | none => exact ⟨_,_,_,rfl,rfl,h.get host key⟩
    | checkpoint => exact .inr ⟨_,_,_,rfl,rfl,h⟩
    | commit order =>
      match checkpoints with
      | [] => exact .inl ⟨rfl,rfl⟩
      | [map] => exact .inr ⟨_,_,_,rfl,rfl,h.setAll order order map⟩
      | map::target::rest => exact .inr ⟨_,_,_,rfl,rfl,h⟩
    | rollback => exact .inr ⟨_,_,_,rfl,rfl,h⟩
    | write key value => exact .inr ⟨_,_,_,rfl,rfl,h.set key value⟩

namespace GuestPointers

variable {s s' : GuestPointers}

theorem Same.run (host : Bytes → Bytes) (h : s.Same s') {ops ops' : List (Nat × AtomicOp)}
    (hops : List.Forall₂ (fun a b => a.1 = b.1 ∧ a.2.SameButOrder b.2) ops ops') :
    s.run host ops = none ∧ s'.run host ops' = none ∨
      ∃ t t', s.run host ops = some t ∧ s'.run host ops' = some t' ∧ t.Same t' := by
  induction hops generalizing s s' with
  | nil => exact .inr ⟨s,s',rfl,rfl,h⟩
  | @cons a b ops ops' hab _ ih =>
    obtain ⟨i,op⟩ := a
    obtain ⟨j,op'⟩ := b
    obtain ⟨rfl,hop⟩ := hab
    obtain ⟨hc,hm⟩ := h
    rw [GuestPointers.run, GuestPointers.run, GuestPointers.step, GuestPointers.step, hc]
    rcases AtomicPointer.step_same hm hop with ⟨hn,hn'⟩ | ⟨next,n,n',hp,hp',hsame⟩
    · rw [hn, hn']
      exact .inl ⟨rfl,rfl⟩
    · rw [hp, hp']
      exact ih ⟨rfl,hsame⟩

end GuestPointers

/-- The orders in which hash maps are visited leave no trace in the store. -/
theorem map_order_invisible (host : Bytes → Bytes) (memory : GuestMemory) (σ : Store) (height : Nat)
    (blockHash stateRoot : Bytes) (ops ops' : List (Nat × AtomicOp))
    (h : List.Forall₂ (fun a b => a.1 = b.1 ∧ a.2.SameButOrder b.2) ops ops') :
    GuestPointers.blockStore host memory σ height blockHash stateRoot ops =
      GuestPointers.blockStore host memory σ height blockHash stateRoot ops' := by
  have hsame : (GuestPointers.default memory).Same (GuestPointers.default memory) := ⟨rfl,rfl,.refl _⟩
  rw [GuestPointers.blockStore, GuestPointers.blockStore]
  rcases hsame.run host h with ⟨hn,hn'⟩ | ⟨s,s',hs,hs',hm⟩
  · rw [hn, hn']
  · rw [hs, hs']
    show (s.memory.flushed.bind fun kvs => some (commitPairs σ height blockHash stateRoot kvs)) =
      s'.memory.flushed.bind fun kvs => some (commitPairs σ height blockHash stateRoot kvs)
    rcases hm.memory.flushed with ⟨hf,hf'⟩ | ⟨kvs,kvs',hf,hf',hp,hfun⟩
    · rw [hf, hf']
    · rw [hf, hf']
      show some _ = some _
      rw [commitPairs_perm hp hfun]

/-- Two keys committed in one order and in the other. -/
theorem map_order_invisible_two_keys :
    GuestPointers.blockStore (fun _ => []) ⟨∅,[]⟩ ∅ 0 [7] [8]
        [(0,.set [1] [2]),(0,.set [3] [4]),(0,.commit .sorted)] =
      GuestPointers.blockStore (fun _ => []) ⟨∅,[]⟩ ∅ 0 [7] [8]
        [(0,.set [1] [2]),(0,.set [3] [4]),(0,.commit .reversed)] :=
  map_order_invisible _ _ _ _ _ _ _ _
    (.cons ⟨rfl,.refl _⟩ (.cons ⟨rfl,.refl _⟩ (.cons ⟨rfl,.commit _ _⟩ .nil)))

end Metashrew

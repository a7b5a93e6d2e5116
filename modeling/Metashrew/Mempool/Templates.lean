import Metashrew.Mempool.Basic
import Metashrew.Support.Consensus

namespace Metashrew.Mempool

open Bytes

structure BlockTemplate where
  txids : List Txid
  totalFees : UInt64
  totalVsize : UInt64
  expectedReward : UInt64

def maxBlockWeight : UInt64 := 4000000

/-- A template under construction. -/
structure Selection where
  included : List Txid
  template : BlockTemplate

section Generate

variable {Tx Rate : Type} (txs : Pool Tx Rate)

def Selection.push (s : Selection) (txid : Txid) (info : MempoolTxInfo Tx Rate) : Selection where
  included := txid::s.included
  template := { s.template with
    txids := s.template.txids ++ [txid]
    totalFees := s.template.totalFees+info.fee
    totalVsize := s.template.totalVsize+info.vsize }

/-- The ancestors that transactions not yet included can still bring in. -/
def pendingAncestors (included : List Txid) : Nat :=
  ((txs.toList.filter fun e => e.1 ∉ included).map fun e => e.2.ancestors.length).sum

/-- One more included transaction brings in its ancestors once and for all. -/
theorem pendingAncestors_push {included : List Txid} {txid : Txid} {info : MempoolTxInfo Tx Rate}
    (hnew : txid ∉ included) (h : KV.get txs txid = some info) :
    info.ancestors.length+pendingAncestors txs (txid::included) ≤ pendingAncestors txs included := by
  have hmem : (txid,info) ∈ txs.toList := Std.ExtTreeMap.mem_toList_iff_getElem?_eq_some.mpr h
  have hle : ∀ l : List (Txid × MempoolTxInfo Tx Rate),
      ((l.filter fun e => e.1 ∉ txid::included).map fun e => e.2.ancestors.length).sum ≤
        ((l.filter fun e => e.1 ∉ included).map fun e => e.2.ancestors.length).sum := by
    intro l
    apply List.Sublist.sum_le_sum
    · apply List.Sublist.map
      apply List.monotone_filter_right
      intro e he
      simp only [List.mem_cons, not_or, decide_eq_true_eq] at he ⊢
      exact he.2
    · intro n _
      exact Nat.zero_le n
  obtain ⟨before,after,hsplit⟩ := List.append_of_mem hmem
  have h1 := hle before
  have h2 := hle after
  rw [pendingAncestors, pendingAncestors, hsplit, List.filter_append, List.filter_append,
    List.filter_cons_of_neg (by simp), List.filter_cons_of_pos (by simpa using hnew), List.map_append,
    List.map_append, List.sum_append, List.sum_append, List.map_cons, List.sum_cons]
  dsimp only
  omega

theorem pendingAncestors_cons (included : List Txid) (txid : Txid) :
    pendingAncestors txs (txid::included) ≤ pendingAncestors txs included := by
  by_cases hnew : txid ∈ included
  · have hsame : ∀ e : Txid × MempoolTxInfo Tx Rate, e.1 ∉ txid::included ↔ e.1 ∉ included := by
      intro e
      rw [List.mem_cons, not_or]
      constructor
      · exact And.right
      · intro h
        exact ⟨fun he => h (he ▸ hnew),h⟩
    simp only [pendingAncestors, hsame, le_refl]
  · cases h : KV.get txs txid with
    | some info => exact (Nat.le_add_left _ _).trans (pendingAncestors_push txs hnew h)
    | none =>
      have hsame : ∀ e ∈ txs.toList, (decide (e.1 ∉ txid::included)) = decide (e.1 ∉ included) := by
        intro e he
        have hne : e.1 ≠ txid := by
          intro heq
          have hget := Std.ExtTreeMap.mem_toList_iff_getElem?_eq_some.mp he
          rw [heq] at hget
          exact absurd (hget.symm.trans h) (by simp)
        simp [hne]
      rw [pendingAncestors, List.filter_congr hsame]
      rfl

/-- The work list, the id to be taken next in front: ancestors go on top of what is left. -/
def includeAncestors (queue : List Txid) (s : Selection) : Selection :=
  match queue with
  | [] => s
  | current::queue =>
    if _hnew : current ∈ s.included then includeAncestors queue s
    else
      match _h : KV.get txs current with
      | none => includeAncestors queue { s with included := current::s.included }
      | some info => includeAncestors (info.ancestors.reverse ++ queue) (s.push current info)
termination_by queue.length+pendingAncestors txs s.included
decreasing_by
  · rw [List.length_cons]
    omega
  · have hle := pendingAncestors_cons txs s.included current
    rw [List.length_cons]
    omega
  · have hle := pendingAncestors_push txs _hnew _h
    rw [List.length_append, List.length_reverse, List.length_cons, Selection.push]
    dsimp only
    omega

section Equations

variable {txs} {current : Txid} {queue : List Txid} {s : Selection} {info : MempoolTxInfo Tx Rate}

theorem includeAncestors_nil : includeAncestors txs [] s = s := by rw [includeAncestors]

theorem includeAncestors_old (h : current ∈ s.included) :
    includeAncestors txs (current::queue) s = includeAncestors txs queue s := by
  rw [includeAncestors, dif_pos h]

theorem includeAncestors_dangling (hnew : current ∉ s.included) (h : KV.get txs current = none) :
    includeAncestors txs (current::queue) s =
      includeAncestors txs queue { s with included := current::s.included } := by
  rw [includeAncestors, dif_neg hnew]
  split
  · rfl
  · rename_i hinfo
    rw [h] at hinfo
    cases hinfo

theorem includeAncestors_held (hnew : current ∉ s.included) (h : KV.get txs current = some info) :
    includeAncestors txs (current::queue) s =
      includeAncestors txs (info.ancestors.reverse ++ queue) (s.push current info) := by
  rw [includeAncestors, dif_neg hnew]
  split
  · rename_i hinfo
    rw [h] at hinfo
    cases hinfo
  · rename_i hinfo
    rw [h] at hinfo
    cases hinfo
    rfl

end Equations

variable [LT Rate] [DecidableLT Rate] (minFeeRate : Rate)

/-- One round over the entries. The size check sees only the entry itself; the sums wrap. -/
def considerEntry (s : Selection) (entry : Txid × MempoolTxInfo Tx Rate) : Selection :=
  if entry.2.feeRate < minFeeRate ∨ entry.1 ∈ s.included then s
  else if maxBlockWeight < s.template.totalVsize+entry.2.vsize then s
  else includeAncestors txs [entry.1] s

/-- Highest rates first; the sort is stable, and rates that do not compare count as equal. -/
def sortByFeeRate (entries : List (Txid × MempoolTxInfo Tx Rate)) :
    List (Txid × MempoolTxInfo Tx Rate) :=
  entries.insertionSort fun a b => ¬a.2.feeRate < b.2.feeRate

def generateBlockTemplate (order : KV.VisitOrder Txid (MempoolTxInfo Tx Rate)) : BlockTemplate :=
  let selection := (sortByFeeRate (order.visit txs)).foldl (considerEntry txs minFeeRate)
    ⟨[],⟨[],0,0,6_25*100_000_000⟩⟩
  { selection.template with
    expectedReward := selection.template.expectedReward+selection.template.totalFees }

end Generate

section Encode

variable {Tx Rate : Type} (codec : ConsensusCodec) (serialize : Tx → Bytes) (coinbaseTx : UInt64 → Tx)

/-- The count that the block announces, with one for the coinbase transaction. -/
def txCount (template : BlockTemplate) : Nat := template.txids.length+1

def blockTransactions (template : BlockTemplate) (txs : Pool Tx Rate) : List Tx :=
  coinbaseTx template.expectedReward::
    template.txids.filterMap fun txid => (KV.get txs txid).map MempoolTxInfo.tx

def encodeBlock (header : Bytes) (template : BlockTemplate) (txs : Pool Tx Rate) : Bytes :=
  hexEncode (header ++ codec.encodeVarInt (txCount template) ++
    (blockTransactions coinbaseTx template txs).flatMap serialize)

end Encode

section Law

variable {Tx Rate : Type} {txs : Pool Tx Rate} {txid : Txid} {info : MempoolTxInfo Tx Rate}
  {s : Selection} {queue base : List Txid}

def feeOf (txs : Pool Tx Rate) (txid : Txid) : Nat :=
  ((KV.get txs txid).map fun info => info.fee.toNat).getD 0

def vsizeOf (txs : Pool Tx Rate) (txid : Txid) : Nat :=
  ((KV.get txs txid).map fun info => info.vsize.toNat).getD 0

/-- A template that a block can be made of, with the transactions of the map that it came from. -/
structure Minable (txs : Pool Tx Rate) (coinbaseTx : UInt64 → Tx) (template : BlockTemplate) :
    Prop where
  nodup : template.txids.Nodup
  ancestors : ∀ before txid after, template.txids = before ++ txid::after →
    ∀ a, Relation.TransGen (Parent txs) a txid → a ∈ before
  fees : template.totalFees.toNat = (template.txids.map (feeOf txs)).sum
  vsize : template.totalVsize.toNat = (template.txids.map (vsizeOf txs)).sum
  limit : template.totalVsize ≤ maxBlockWeight
  count : txCount template = (blockTransactions coinbaseTx template txs).length

/-- The entries that the rounds take when they leave ancestors alone. -/
def plainScan [LT Rate] [DecidableLT Rate] (minFeeRate : Rate) :
    List (Txid × MempoolTxInfo Tx Rate) → UInt64 → List (Txid × MempoolTxInfo Tx Rate)
  | [], _ => []
  | e::es, total =>
    if e.2.feeRate < minFeeRate ∨ maxBlockWeight < total+e.2.vsize then plainScan minFeeRate es total
    else e::plainScan minFeeRate es (total+e.2.vsize)

/-- The entries by fee rate, each taken that fits: none is taken before one of its parents, and the
sums stay below 2^64. -/
structure TakesParentsFirst [LT Rate] [DecidableLT Rate] (txs : Pool Tx Rate) (minFeeRate : Rate)
    (order : KV.VisitOrder Txid (MempoolTxInfo Tx Rate)) : Prop where
  parents : ∀ before txid after,
    (plainScan minFeeRate (sortByFeeRate (order.visit txs)) 0).map Prod.fst =
      before ++ txid::after → ∀ a, Parent txs a txid → a ∈ before
  fees : ((plainScan minFeeRate (sortByFeeRate (order.visit txs)) 0).map
    fun e => e.2.fee.toNat).sum < 2^64
  vsize : ((plainScan minFeeRate (sortByFeeRate (order.visit txs)) 0).map
    fun e => e.2.vsize.toNat).sum < 2^64

/-- In the list every parent stands before its child or in what the list follows. -/
def Closed (txs : Pool Tx Rate) : List Txid → List Txid → Prop
  | _, [] => True
  | base, txid::txids => (∀ a, Parent txs a txid → a ∈ base) ∧ Closed txs (base ++ [txid]) txids

theorem closed_iff {txids : List Txid} : Closed txs base txids ↔
    ∀ before txid after, txids = before ++ txid::after →
      ∀ a, Parent txs a txid → a ∈ base ++ before := by
  induction txids generalizing base with
  | nil => simp [Closed]
  | cons first txids ih =>
    rw [Closed, ih]
    constructor
    · intro h before txid after hsplit a ha
      cases before with
      | nil =>
        injection hsplit with hfirst _
        rw [← hfirst] at ha
        simpa using h.1 a ha
      | cons b before =>
        injection hsplit with hfirst hrest
        have hmem := h.2 before txid after hrest a ha
        rw [hfirst] at hmem
        simpa using hmem
    · intro h
      constructor
      · intro a ha
        simpa using h [] first txids rfl a ha
      · intro before txid after hsplit a ha
        have hmem := h (first::before) txid after (by rw [hsplit, List.cons_append]) a ha
        simpa using hmem

/-- With the parents first, all ancestors are. -/
theorem closed_iff_ancestors {txids : List Txid} : Closed txs [] txids ↔
    ∀ before txid after, txids = before ++ txid::after →
      ∀ a, Relation.TransGen (Parent txs) a txid → a ∈ before := by
  rw [closed_iff]
  constructor
  · intro h before txid after hsplit a ha
    induction ha generalizing before after with
    | single hparent => exact h before _ after hsplit a hparent
    | @tail b c _ hparent ih =>
      obtain ⟨front,back,rfl⟩ := List.append_of_mem (h before c after hsplit b hparent)
      have hmem := ih front (back ++ c::after) (by
        rw [hsplit]
        simp only [List.append_assoc, List.cons_append])
      exact List.mem_append_left _ hmem
  · intro h before txid after hsplit a ha
    exact h before txid after hsplit a (.single ha)

/-- What holds of a selection at any time: no id twice, the included ids that the map has, and sums
that count what is listed. -/
structure Selection.Sound (txs : Pool Tx Rate) (s : Selection) : Prop where
  nodup : s.template.txids.Nodup
  mem : ∀ txid, txid ∈ s.template.txids ↔ txid ∈ s.included ∧ KV.get txs txid ≠ none
  fees : s.template.totalFees.toNat = (s.template.txids.map (feeOf txs)).sum%2^64
  vsize : s.template.totalVsize.toNat = (s.template.txids.map (vsizeOf txs)).sum%2^64

theorem Selection.Sound.push (hs : s.Sound txs) (hnew : txid ∉ s.included)
    (h : KV.get txs txid = some info) : (s.push txid info).Sound txs where
  nodup := by
    have hnot : txid ∉ s.template.txids := fun hmem => hnew ((hs.mem txid).mp hmem).1
    show (s.template.txids ++ [txid]).Nodup
    rw [List.nodup_append]
    refine ⟨hs.nodup,List.nodup_singleton txid,?_⟩
    intro a ha b hb heq
    rw [List.mem_singleton.mp hb] at heq
    exact hnot (heq ▸ ha)
  mem a := by
    show a ∈ s.template.txids ++ [txid] ↔ a ∈ txid::s.included ∧ _
    rw [List.mem_append, List.mem_singleton, List.mem_cons, hs.mem]
    constructor
    · intro ha
      rcases ha with ha | rfl
      · exact ⟨.inr ha.1,ha.2⟩
      · exact ⟨.inl rfl,by simp [h]⟩
    · intro ha
      rcases ha.1 with rfl | hmem
      · exact .inr rfl
      · exact .inl ⟨hmem,ha.2⟩
  fees := by
    have hfee : feeOf txs txid = info.fee.toNat := by simp [feeOf, h]
    show (s.template.totalFees+info.fee).toNat = ((s.template.txids ++ [txid]).map (feeOf txs)).sum%2^64
    rw [List.map_append, List.sum_append, List.map_singleton, List.sum_singleton, hfee, UInt64.toNat_add,
      hs.fees]
    omega
  vsize := by
    have hvsize : vsizeOf txs txid = info.vsize.toNat := by simp [vsizeOf, h]
    show (s.template.totalVsize+info.vsize).toNat =
      ((s.template.txids ++ [txid]).map (vsizeOf txs)).sum%2^64
    rw [List.map_append, List.sum_append, List.map_singleton, List.sum_singleton, hvsize,
      UInt64.toNat_add, hs.vsize]
    omega

theorem Selection.Sound.dangling (hs : s.Sound txs) (h : KV.get txs txid = none) :
    ({ s with included := txid::s.included } : Selection).Sound txs where
  nodup := hs.nodup
  mem a := by
    rw [hs.mem, List.mem_cons]
    constructor
    · intro ha
      exact ⟨.inr ha.1,ha.2⟩
    · intro ha
      rcases ha.1 with rfl | hmem
      · exact absurd h ha.2
      · exact ⟨hmem,ha.2⟩
  fees := hs.fees
  vsize := hs.vsize

theorem Selection.Sound.includeAncestors (hs : s.Sound txs) (queue : List Txid) :
    (includeAncestors txs queue s).Sound txs := by
  induction queue, s using includeAncestors.induct txs with
  | case1 s =>
    rw [includeAncestors_nil]
    exact hs
  | case2 s current queue hold ih =>
    rw [includeAncestors_old hold]
    exact ih hs
  | case3 s current queue hnew h ih =>
    rw [includeAncestors_dangling hnew h]
    exact ih (hs.dangling h)
  | case4 s current queue hnew info h ih =>
    rw [includeAncestors_held hnew h]
    exact ih (hs.push hnew h)

/-- Ids are only added at the end. -/
theorem includeAncestors_grows (txs : Pool Tx Rate) (queue : List Txid) (s : Selection) : ∃ more,
    (includeAncestors txs queue s).template.txids = s.template.txids ++ more := by
  induction queue, s using includeAncestors.induct txs with
  | case1 s =>
    rw [includeAncestors_nil]
    exact ⟨[],(List.append_nil _).symm⟩
  | case2 s current queue hold ih =>
    rw [includeAncestors_old hold]
    exact ih
  | case3 s current queue hnew h ih =>
    rw [includeAncestors_dangling hnew h]
    exact ih
  | case4 s current queue hnew info h ih =>
    rw [includeAncestors_held hnew h]
    obtain ⟨more,hmore⟩ := ih
    exact ⟨current::more,by rw [hmore]; exact List.append_assoc _ [current] more⟩

/-- A work list with nothing to take leaves the template as it is. -/
theorem includeAncestors_idle (hidle : ∀ txid ∈ queue, txid ∈ s.included ∨ KV.get txs txid = none) :
    (includeAncestors txs queue s).template = s.template ∧
      ∀ txid ∈ (includeAncestors txs queue s).included, txid ∈ s.included ∨ KV.get txs txid = none := by
  induction queue generalizing s with
  | nil =>
    rw [includeAncestors_nil]
    exact ⟨rfl,fun _ => .inl⟩
  | cons current queue ih =>
    by_cases hold : current ∈ s.included
    · rw [includeAncestors_old hold]
      exact ih fun txid hmem => hidle txid (List.mem_cons_of_mem _ hmem)
    · have h := (hidle current List.mem_cons_self).resolve_left hold
      rw [includeAncestors_dangling hold h]
      obtain ⟨htemplate,hincluded⟩ := ih (s := { s with included := current::s.included })
        fun txid hmem => (hidle txid (List.mem_cons_of_mem _ hmem)).imp_left (List.mem_cons_of_mem _)
      refine ⟨htemplate,?_⟩
      intro txid hmem
      rcases hincluded txid hmem with hin | hnone
      · rcases List.mem_cons.mp hin with rfl | hin
        · exact .inr h
        · exact .inl hin
      · exact .inr hnone

/-- The entries that are still to come are entries of the map, and none is included yet. -/
structure Ahead (txs : Pool Tx Rate) (s : Selection) (es : List (Txid × MempoolTxInfo Tx Rate)) :
    Prop where
  held : ∀ e ∈ es, KV.get txs e.1 = some e.2
  nodup : (es.map Prod.fst).Nodup
  fresh : ∀ e ∈ es, e.1 ∉ s.included

theorem Ahead.tail {e : Txid × MempoolTxInfo Tx Rate}
    {es : List (Txid × MempoolTxInfo Tx Rate)} (h : Ahead txs s (e::es)) : Ahead txs s es where
  held e' he := h.held e' (List.mem_cons_of_mem e he)
  nodup := (List.nodup_cons.mp h.nodup).2
  fresh e' he := h.fresh e' (List.mem_cons_of_mem e he)

end Law

section Scan

variable {Tx Rate : Type} [LT Rate] [DecidableLT Rate] {txs : Pool Tx Rate} {minFeeRate : Rate}
  {s : Selection} {e : Txid × MempoolTxInfo Tx Rate} {es : List (Txid × MempoolTxInfo Tx Rate)}

theorem Selection.Sound.considerEntry (hs : s.Sound txs) (e : Txid × MempoolTxInfo Tx Rate) :
    (considerEntry txs minFeeRate s e).Sound txs := by
  rw [Mempool.considerEntry]
  split_ifs
  · exact hs
  · exact hs
  · exact hs.includeAncestors [e.1]

theorem Selection.Sound.foldl (hs : s.Sound txs) (es : List (Txid × MempoolTxInfo Tx Rate)) :
    (es.foldl (Mempool.considerEntry txs minFeeRate) s).Sound txs := by
  induction es generalizing s with
  | nil => exact hs
  | cons e es ih => exact ih (hs.considerEntry e)

theorem foldl_grows (txs : Pool Tx Rate) (minFeeRate : Rate)
    (es : List (Txid × MempoolTxInfo Tx Rate)) (s : Selection) : ∃ more,
    (es.foldl (considerEntry txs minFeeRate) s).template.txids = s.template.txids ++ more := by
  induction es generalizing s with
  | nil => exact ⟨[],(List.append_nil _).symm⟩
  | cons e es ih =>
    obtain ⟨more,hmore⟩ := ih (considerEntry txs minFeeRate s e)
    have hstep : ∃ first, (considerEntry txs minFeeRate s e).template.txids =
        s.template.txids ++ first := by
      rw [considerEntry]
      split_ifs
      · exact ⟨[],(List.append_nil _).symm⟩
      · exact ⟨[],(List.append_nil _).symm⟩
      · exact includeAncestors_grows txs [e.1] s
    obtain ⟨first,hfirst⟩ := hstep
    refine ⟨first ++ more,?_⟩
    rw [List.foldl_cons, hmore, hfirst, List.append_assoc]

/-- An entry with its parents listed is the only one that its round takes. -/
theorem considerEntry_taken (hs : s.Sound txs) (hahead : Ahead txs s (e::es))
    (hrate : ¬e.2.feeRate < minFeeRate) (hfits : ¬maxBlockWeight < s.template.totalVsize+e.2.vsize)
    (hparents : ∀ a, Parent txs a e.1 → a ∈ s.template.txids) :
    (considerEntry txs minFeeRate s e).template = (s.push e.1 e.2).template ∧
      Ahead txs (considerEntry txs minFeeRate s e) es := by
  have hheld := hahead.held e List.mem_cons_self
  have hfresh := hahead.fresh e List.mem_cons_self
  have hstep : considerEntry txs minFeeRate s e =
      includeAncestors txs e.2.ancestors.reverse (s.push e.1 e.2) := by
    rw [considerEntry, if_neg (not_or.mpr ⟨hrate,hfresh⟩), if_neg hfits,
      includeAncestors_held hfresh hheld, List.append_nil]
  have hidle : ∀ a ∈ e.2.ancestors.reverse, a ∈ (s.push e.1 e.2).included ∨ KV.get txs a = none := by
    intro a ha
    by_cases hnone : KV.get txs a = none
    · exact .inr hnone
    · have hmem := hparents a ⟨hnone,e.2,hheld,List.mem_reverse.mp ha⟩
      exact .inl (List.mem_cons_of_mem _ ((hs.mem a).mp hmem).1)
  obtain ⟨htemplate,hincluded⟩ := includeAncestors_idle hidle
  rw [hstep]
  refine ⟨htemplate,hahead.tail.held,hahead.tail.nodup,?_⟩
  intro e' he' hmem
  rcases hincluded e'.1 hmem with hin | hnone
  · rcases List.mem_cons.mp hin with heq | hin
    · exact (List.nodup_cons.mp hahead.nodup).1 (heq ▸ List.mem_map_of_mem he')
    · exact hahead.tail.fresh e' he' hin
  · rw [hahead.tail.held e' he'] at hnone
    cases hnone

/-- The rounds list parents first exactly when the plain scan does, and then they list the same. -/
theorem foldl_closed_iff (minFeeRate : Rate) (es : List (Txid × MempoolTxInfo Tx Rate)) (hs : s.Sound txs)
    (hahead : Ahead txs s es) (more : List Txid)
    (hmore : (es.foldl (considerEntry txs minFeeRate) s).template.txids = s.template.txids ++ more) :
    (Closed txs s.template.txids more ↔ Closed txs s.template.txids
        ((plainScan minFeeRate es s.template.totalVsize).map Prod.fst)) ∧
      (Closed txs s.template.txids more →
        more = (plainScan minFeeRate es s.template.totalVsize).map Prod.fst ∧
        (s.template.totalVsize ≤ maxBlockWeight →
          (es.foldl (considerEntry txs minFeeRate) s).template.totalVsize ≤ maxBlockWeight)) := by
  induction es generalizing s more with
  | nil =>
    have hnil : more = [] := List.append_right_eq_self.mp hmore.symm
    rw [hnil]
    exact ⟨Iff.rfl,fun _ => ⟨rfl,id⟩⟩
  | cons e es ih =>
    by_cases hskip : e.2.feeRate < minFeeRate ∨ maxBlockWeight < s.template.totalVsize+e.2.vsize
    · have hstep : considerEntry txs minFeeRate s e = s := by
        rw [considerEntry]
        split_ifs with h1 h2
        · rfl
        · rfl
        · exact absurd hskip (not_or.mpr ⟨(not_or.mp h1).1,h2⟩)
      rw [List.foldl_cons, hstep] at hmore ⊢
      rw [plainScan, if_pos hskip]
      exact ih hs hahead.tail more hmore
    · obtain ⟨hrate,hfits⟩ := not_or.mp hskip
      have hfresh := hahead.fresh e List.mem_cons_self
      -- the round lists the entry first of all
      have hlist : ∃ first, (considerEntry txs minFeeRate s e).template.txids =
          s.template.txids ++ e.1::first := by
        rw [considerEntry, if_neg (not_or.mpr ⟨hrate,hfresh⟩), if_neg hfits,
          includeAncestors_held hfresh (hahead.held e List.mem_cons_self)]
        obtain ⟨first,hfirst⟩ := includeAncestors_grows txs (e.2.ancestors.reverse ++ []) (s.push e.1 e.2)
        exact ⟨first,by rw [hfirst]; exact List.append_assoc _ [e.1] first⟩
      obtain ⟨first,hfirst⟩ := hlist
      obtain ⟨later,hlater⟩ := foldl_grows txs minFeeRate es
        (considerEntry txs minFeeRate s e)
      have hmore' : more = e.1::(first ++ later) := by
        rw [List.foldl_cons, hlater, hfirst, List.append_assoc] at hmore
        exact (List.append_cancel_left hmore).symm
      rw [plainScan, if_neg hskip, List.map_cons, hmore', Closed, Closed]
      by_cases hparents : ∀ a, Parent txs a e.1 → a ∈ s.template.txids
      · obtain ⟨htemplate,hahead'⟩ := considerEntry_taken hs hahead hrate hfits hparents
        have hnext : (es.foldl (considerEntry txs minFeeRate) (considerEntry txs minFeeRate s e)
            ).template.txids = (considerEntry txs minFeeRate s e).template.txids ++ (first ++ later) := by
          rw [List.foldl_cons, hmore'] at hmore
          rw [hmore, htemplate]
          exact (List.append_assoc _ [e.1] _).symm
        have ih := ih (hs.considerEntry e) hahead' _ hnext
        rw [htemplate] at ih
        obtain ⟨hiff,hsame⟩ := ih
        refine ⟨and_congr_right fun _ => hiff,?_⟩
        intro hclosed
        obtain ⟨heq,hlimit⟩ := hsame hclosed.2
        refine ⟨congrArg (e.1::·) heq,?_⟩
        intro _
        exact hlimit (UInt64.not_lt.mp hfits)
      · constructor
        · constructor
          · intro h
            exact absurd h.1 hparents
          · intro h
            exact absurd h.1 hparents
        · intro h
          exact absurd h.1 hparents

theorem mem_of_mem_plainScan {total : UInt64} (h : e ∈ plainScan minFeeRate es total) : e ∈ es := by
  induction es generalizing total with
  | nil => exact h
  | cons e' es ih =>
    rw [plainScan] at h
    by_cases hskip : e'.2.feeRate < minFeeRate ∨ maxBlockWeight < total+e'.2.vsize
    · rw [if_pos hskip] at h
      exact List.mem_cons_of_mem e' (ih h)
    · rw [if_neg hskip] at h
      rcases List.mem_cons.mp h with rfl | h
      · exact List.mem_cons_self
      · exact List.mem_cons_of_mem e' (ih h)

/-- The entries, sorted, are those of the map, each once. -/
theorem ahead_start (order : KV.VisitOrder Txid (MempoolTxInfo Tx Rate)) (template : BlockTemplate) :
    Ahead txs ⟨[],template⟩ (sortByFeeRate (order.visit txs)) where
  held e he := order.mem_visit.mp ((List.mem_insertionSort _).mp he)
  nodup := (((List.perm_insertionSort _ _).map Prod.fst).nodup_iff).mpr (order.nodup_visit txs)
  fresh _ _ h := by cases h

end Scan

/-- The template is one that a block can be made of exactly when going by fee rate alone takes no
transaction before one of its parents. -/
theorem block_template_minable_iff {Tx Rate : Type} [LT Rate] [DecidableLT Rate]
    (txs : Pool Tx Rate) (minFeeRate : Rate) (order : KV.VisitOrder Txid (MempoolTxInfo Tx Rate))
    (coinbaseTx : UInt64 → Tx) :
    Minable txs coinbaseTx (generateBlockTemplate txs minFeeRate order) ↔
      TakesParentsFirst txs minFeeRate order := by
  obtain ⟨start,hstart⟩ : ∃ start : Selection, start = ⟨[],⟨[],0,0,6_25*100_000_000⟩⟩ := ⟨_,rfl⟩
  obtain ⟨picks,hpicks⟩ : ∃ picks, picks =
    plainScan minFeeRate (sortByFeeRate (order.visit txs)) 0 := ⟨_,rfl⟩
  obtain ⟨final,hfinal⟩ : ∃ final, final =
    (sortByFeeRate (order.visit txs)).foldl (considerEntry txs minFeeRate) start := ⟨_,rfl⟩
  have hsound : start.Sound txs := by
    rw [hstart]
    exact ⟨.nil,by simp,rfl,rfl⟩
  have hahead : Ahead txs start (sortByFeeRate (order.visit txs)) := by
    rw [hstart]
    exact ahead_start order _
  have hlast : final.Sound txs := by
    rw [hfinal]
    exact hsound.foldl _
  have htemplate : generateBlockTemplate txs minFeeRate order = { final.template with
      expectedReward := final.template.expectedReward+final.template.totalFees } := by
    rw [hfinal, hstart]
    rfl
  obtain ⟨hiff,hsame⟩ := foldl_closed_iff minFeeRate _ hsound hahead
    final.template.txids (by rw [← hfinal, hstart]; rfl)
  rw [← hfinal] at hsame
  rw [hstart, ← hpicks] at hiff hsame
  -- the sums of the listed transactions are those of the scan
  have hsum : ∀ f : MempoolTxInfo Tx Rate → Nat, final.template.txids = picks.map Prod.fst →
      (final.template.txids.map fun txid => ((KV.get txs txid).map f).getD 0).sum =
        (picks.map fun e => f e.2).sum := by
    intro f heq
    rw [heq, List.map_map]
    congr 1
    apply List.map_congr_left
    intro e he
    rw [hpicks] at he
    have hheld := hahead.held e (mem_of_mem_plainScan he)
    simp [hheld]
  have hcount : txCount final.template = (blockTransactions coinbaseTx { final.template with
      expectedReward := final.template.expectedReward+final.template.totalFees } txs).length := by
    have hall : ∀ txids : List Txid, (∀ txid ∈ txids, KV.get txs txid ≠ none) →
        (txids.filterMap fun txid => (KV.get txs txid).map MempoolTxInfo.tx).length = txids.length := by
      intro txids hheld
      rw [List.length_filterMap_eq_countP, List.countP_eq_length]
      intro txid hmem
      rw [Option.isSome_map]
      exact Option.isSome_iff_ne_none.mpr (hheld txid hmem)
    rw [txCount, blockTransactions, List.length_cons, hall _ fun txid hmem => ((hlast.mem txid).mp hmem).2]
  rw [htemplate]
  constructor
  · intro h
    have hclosed := closed_iff_ancestors.mpr h.ancestors
    have hpicked := (hsame hclosed).1
    refine ⟨?_,?_,?_⟩
    · have hscan := closed_iff.mp (hiff.mp hclosed)
      rw [← hpicks]
      exact hscan
    · rw [← hpicks, ← hsum (fun info => info.fee.toNat) hpicked]
      exact h.fees.symm.trans_lt (UInt64.toNat_lt _)
    · rw [← hpicks, ← hsum (fun info => info.vsize.toNat) hpicked]
      exact h.vsize.symm.trans_lt (UInt64.toNat_lt _)
  · intro h
    have hparents := h.parents
    have hfees := h.fees
    have hvsize := h.vsize
    rw [← hpicks] at hparents hfees hvsize
    have hclosed := hiff.mpr (closed_iff.mpr hparents)
    obtain ⟨hpicked,hlimit⟩ := hsame hclosed
    rw [← hsum (fun info => info.fee.toNat) hpicked] at hfees
    rw [← hsum (fun info => info.vsize.toNat) hpicked] at hvsize
    refine ⟨hlast.nodup,closed_iff_ancestors.mp hclosed,?_,?_,?_,hcount⟩
    · exact hlast.fees.trans (Nat.mod_eq_of_lt hfees)
    · exact hlast.vsize.trans (Nat.mod_eq_of_lt hvsize)
    · apply hlimit
      decide

/-- A transaction with a high fee rate whose parent, the other one, has a low one. -/
def lowFeeParent : Pool Unit Nat := KV.write ∅
  [.put (Vector.replicate 32 1) ⟨(),200,200,1,[],[Vector.replicate 32 2]⟩,
    .put (Vector.replicate 32 2) ⟨(),1000,200,5,[Vector.replicate 32 1],[]⟩]

theorem get_lowFeeParent (txid : Txid) : KV.get lowFeeParent txid =
    if Vector.replicate 32 2 = txid then some ⟨(),1000,200,5,[Vector.replicate 32 1],[]⟩
    else if Vector.replicate 32 1 = txid then some ⟨(),200,200,1,[],[Vector.replicate 32 2]⟩
    else none := by
  rw [lowFeeParent, KV.write, List.foldl_cons, List.foldl_cons, List.foldl_nil, KV.get_applyOp,
    KV.get_applyOp]
  rfl

theorem lowFeeParent_held {txid : Txid} {info : MempoolTxInfo Unit Nat}
    (h : KV.get lowFeeParent txid = some info) :
    (txid = Vector.replicate 32 1 ∧ info.ancestors = []) ∨
      (txid = Vector.replicate 32 2 ∧ info.ancestors = [Vector.replicate 32 1]) := by
  rw [get_lowFeeParent] at h
  by_cases h2 : Vector.replicate 32 2 = txid
  · rw [if_pos h2] at h
    cases h
    exact .inr ⟨h2.symm,rfl⟩
  · rw [if_neg h2] at h
    by_cases h1 : Vector.replicate 32 1 = txid
    · rw [if_pos h1] at h
      cases h
      exact .inl ⟨h1.symm,rfl⟩
    · rw [if_neg h1] at h
      cases h

theorem lowFeeParent_parent {a txid : Txid} (h : Parent lowFeeParent a txid) :
    a = Vector.replicate 32 1 ∧ txid = Vector.replicate 32 2 := by
  obtain ⟨_,info,hinfo,hmem⟩ := h
  rcases lowFeeParent_held hinfo with ⟨_,hanc⟩ | ⟨htxid,hanc⟩
  · rw [hanc] at hmem
    cases hmem
  · rw [hanc] at hmem
    exact ⟨List.mem_singleton.mp hmem,htxid⟩

/-- The child is listed before its parent. -/
theorem block_template_child_first : ¬∀ txs : Pool Unit Nat,
    (∀ txid info, KV.get txs txid = some info → ∀ a ∈ info.ancestors, KV.get txs a ≠ none) →
      (∀ txid, ¬Relation.TransGen (Parent txs) txid txid) → ∀ minFeeRate order coinbaseTx,
        Minable txs coinbaseTx (generateBlockTemplate txs minFeeRate order) := by
  intro h
  have hrun : (generateBlockTemplate lowFeeParent 1 .sorted).txids =
      [Vector.replicate 32 2,Vector.replicate 32 1] := by decide +kernel
  have hparent : Parent lowFeeParent (Vector.replicate 32 1) (Vector.replicate 32 2) :=
    ⟨by decide +kernel,⟨(),1000,200,5,[Vector.replicate 32 1],[]⟩,
      (get_lowFeeParent _).trans (if_pos rfl),List.mem_singleton_self _⟩
  have hminable := h lowFeeParent ?_ ?_ 1 .sorted fun _ => ()
  · have hmem := hminable.ancestors [] (Vector.replicate 32 2) [Vector.replicate 32 1] hrun
      (Vector.replicate 32 1) (.single hparent)
    cases hmem
  · intro txid info hinfo a ha
    rcases lowFeeParent_held hinfo with ⟨_,hanc⟩ | ⟨_,hanc⟩
    · rw [hanc] at ha
      cases ha
    · rw [hanc] at ha
      rw [List.mem_singleton.mp ha]
      exact hparent.1
  · intro txid hcycle
    obtain ⟨b,hb,_⟩ := Relation.TransGen.head'_iff.mp hcycle
    obtain ⟨c,_,hc⟩ := Relation.TransGen.tail'_iff.mp hcycle
    have hne := (lowFeeParent_parent hb).1.symm.trans (lowFeeParent_parent hc).2
    revert hne
    decide

end Metashrew.Mempool

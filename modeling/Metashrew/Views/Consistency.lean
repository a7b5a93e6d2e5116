import Metashrew.Ledger.Heights
import Metashrew.Ledger.Reads
import Metashrew.Recovery.Firm
import Metashrew.Views.Reads

namespace Metashrew

open Bytes Durable Steps Versioned

/-- No key that the view goes on to read has an update above `r` and up to the view's height. -/
def View.untouched (σ : Store) (r : Nat) (v : View) : Bool :=
  v.coming.all fun key => (getHeightsForKey (rocksDB σ) key).toOption.all fun heights =>
    heights.all fun t => !(r < t && t ≤ v.height)

/-- A block above the tip whose keys collide with no internal name, with values that the guest can
size and lengths that the binary search can add up. -/
def fitsCommit (σ : Store) (height : Nat) (b : Block) : Bool :=
  (isFreshDb σ || getIndexedHeight σ < height) && b.flush.list.all fun kv =>
    ¬Reserved kv.1 && kv.2.length < 2^32 &&
      ((KV.get σ (lengthKey kv.1)).map parseLength).getD 0+(updatesOf kv.1 b.flush.list).length ≤ 2^31

/-- The next write leaves every record that the host call in progress goes on to look up. -/
def View.keepsReads (σ σ' : Store) (v : View) : Bool :=
  v.call.all fun c => (c.reads.asked (KV.get σ)).all fun name => KV.get σ' name == KV.get σ name

/-- What the indexer and the view have to leave to each other. Once the view has begun, a block at or
below its height writes none of the keys it goes on to read, and a rollback undoes no update of
them up to its height; while a rollback is unfinished the view reads under the same condition; and
no write of a rollback takes a record from the lookup in progress. -/
def Server.spares (s : Server) : Server.Action → Bool
  | .commit height b => fitsCommit s.store height b && s.view.all fun v =>
      !v.begun || v.height < height || v.coming.all fun key => (updatesOf key b.flush.list).isEmpty
  | .beginRollback height => s.view.all fun v => !v.begun || v.untouched s.store height
  | .rollbackWrite => s.view.all fun v => s.rollback.all fun u => v.keepsReads s.store u.next
  | .startView _ _ => true
  | .viewRead => s.view.all fun v => s.rollback.all fun u => v.untouched (s.chains.headD ∅) u.target

/-- What holds of a committed chain state, also after rollbacks that leave records above the tip. -/
structure Ledger.Standing (L : Ledger) : Prop where
  sound : ∃ n, n ≤ 2^32 ∧ L.Sound n
  covered : L.Covered
  indexed : ∀ i, L.indexed = some i → i < 2^32
  below : ∀ key, ∀ e ∈ L.history key, e.1 ≤ L.indexed.getD 0
  first : ∀ key, ∀ e ∈ L.history key, e.1 = 0 → L.hash 0 ≠ none
  short : ∀ key, (L.history key).length ≤ 2^31
  values : ∀ key, ∀ e ∈ L.history key, e.2.length < 2^32

namespace Ledger.Standing

variable {σ σ' : Store} {L : Ledger} {t : Nat} {b : Block}

theorem empty : Ledger.empty.Standing where
  sound := ⟨0,by norm_num,.empty 0⟩
  covered _ _ he := absurd he List.not_mem_nil
  indexed _ h := by cases h
  below _ _ he := absurd he List.not_mem_nil
  first _ _ he := absurd he List.not_mem_nil
  short _ := Nat.zero_le _
  values _ _ he := absurd he List.not_mem_nil

/-- A lookup of one store finds the value at the height. -/
theorem getAtHeight (hL : L.Standing) (hσ : Represents σ L) (key : Bytes) (h : Nat) :
    Metashrew.getAtHeight (rocksDB σ) key h = .ok (asOf h (L.history key)) := by
  obtain ⟨n,hn,hs⟩ := hL.sound
  exact searchUpdates_spec hσ hs hn (hL.short key) h

theorem asOf_length (hL : L.Standing) {key value : Bytes} {h : Nat}
    (hv : asOf h (L.history key) = some value) : value.length < 2^32 := by
  obtain ⟨e,he,rfl⟩ := Option.map_eq_some_iff.mp hv
  exact hL.values key e (mem_upTo.mp (List.mem_of_getLast? he)).1

theorem firm (hL : L.Standing) : L.Firm := ⟨hL.sound,hL.covered,hL.indexed,hL.below,hL.first⟩

theorem of_firm (hL : L.Firm) (hshort : ∀ key, (L.history key).length ≤ 2^31)
    (hvalues : ∀ key, ∀ e ∈ L.history key, e.2.length < 2^32) : L.Standing :=
  ⟨hL.sound,hL.covered,hL.indexed,hL.below,hL.first,hshort,hvalues⟩

theorem getIndexedHeight (hL : L.Standing) (hσ : Represents σ L) :
    Metashrew.getIndexedHeight σ = L.indexed.getD 0 := hL.firm.getIndexedHeight hσ

/-- The heights of a key as the code lists them. -/
theorem untouched (hL : L.Standing) (hσ : Represents σ L) {v : View} {r : Nat}
    (h : v.untouched σ r = true) {key : Bytes} (hk : key ∈ v.coming) :
    ∀ e ∈ L.history key, ¬(r < e.1 ∧ e.1 ≤ v.height) := by
  obtain ⟨n,hn,hs⟩ := hL.sound
  obtain ⟨heights,hheights,hmem⟩ := getHeightsForKey_spec hσ hs hn key
  have hall := List.all_eq_true.mp h key hk
  rw [hheights] at hall
  intro e he
  have hone : e.1 ≤ r ∨ v.height < e.1 := by
    simpa using List.all_eq_true.mp hall e.1 ((hmem e.1).mpr ⟨e,he,rfl⟩)
  omega

/-- A commit of a fitting block appends the block to the ledger. -/
theorem commit (hL : L.Standing) (hσ : Represents σ L) (ht : t < 2^32)
    (hf : fitsCommit σ t b = true) (hc : commitBlock σ t b = .ok σ') :
    Represents σ' (L.block t b) ∧ (L.block t b).Standing ∧ ∀ key, ∀ e ∈ L.history key, e.1 < t := by
  obtain ⟨n,hn,hs⟩ := hL.sound
  obtain ⟨htip,hall⟩ := (Bool.and_eq_true _ _).mp hf
  rw [Bool.or_eq_true, decide_eq_true_eq, hL.getIndexedHeight hσ] at htip
  have hkv : ∀ kv ∈ b.flush.list, ¬Reserved kv.1 ∧ kv.2.length < 2^32 ∧
      (L.history kv.1).length+(updatesOf kv.1 b.flush.list).length ≤ 2^31 := by
    intro kv hkv
    have h := List.all_eq_true.mp hall kv hkv
    rw [hσ.holdsHistories.parse_length (hs.short kv.1)] at h
    simpa [and_assoc] using h
  obtain ⟨hrep,hfirm,hlt⟩ := hL.firm.commit hσ ht htip (fun kv h => (hkv kv h).1) hc
  refine ⟨hrep,of_firm hfirm ?_ ?_,hlt⟩
  · intro key
    show (L.history key ++ _).length ≤ _
    rw [List.length_append, List.length_map]
    by_cases hnil : updatesOf key b.flush.list = []
    · rw [hnil]
      exact hL.short key
    · rw [updatesOf_eq_nil] at hnil
      push Not at hnil
      obtain ⟨kv,hin,rfl⟩ := hnil
      exact (hkv kv hin).2.2
  · intro key e he
    obtain he | ⟨_,he⟩ := mem_block_history he
    · exact hL.values key e he
    · exact (hkv _ he).2.1

/-- Any part of a rollback keeps it. -/
theorem partly {L' : Ledger} {r : Nat} (hL : L.Standing) (hp : L.PartlyRolledBack r L') :
    L'.Standing := by
  refine of_firm (hL.firm.partly hp) ?_ ?_
  · intro key
    obtain h | h := hp.history key
    · rw [h]
      exact hL.short key
    · rw [h]
      exact le_trans (upTo_length_le ..) (hL.short key)
  · exact fun key e he => hL.values key e (hp.mem_history he)

/-- So does the end of a rollback that has cut every history. -/
theorem rolledBack {L' : Ledger} {r : Nat} (hL : L.Standing) (hr : r < 2^32)
    (hp : L.PartlyRolledBack r L') (hcut : ∀ key, L'.history key = upTo r (L.history key)) :
    (L'.setIndexed r).Standing := by
  have hpart := hL.partly hp
  exact of_firm (hL.firm.rolledBack hr hp hcut) hpart.short hpart.values

end Ledger.Standing

/-- The states that the writes still to come lead to: partial rollbacks, and at last all histories cut
and the pointer moved. -/
def Ledger.Remaining (L : Ledger) (r : Nat) : Store → List Store → Prop
  | σ, [] => ∃ L', L.PartlyRolledBack r L' ∧ (∀ key, L'.history key = upTo r (L.history key)) ∧
      Represents σ (L'.setIndexed r)
  | σ, σ'::σs => (∃ L', L.PartlyRolledBack r L' ∧ Represents σ L') ∧ L.Remaining r σ' σs

private theorem Ledger.Remaining.of_points {L L' : Ledger} {r : Nat} {τ : Store}
    (hp : L.PartlyRolledBack r L') (hcut : ∀ key, L'.history key = upTo r (L.history key))
    (hτ : Represents τ (L'.setIndexed r)) (ss : List Store)
    (hss : ∀ σ ∈ ss, ∃ L'', L.PartlyRolledBack r L'' ∧ Represents σ L'') {σ : Store} {σs : List Store}
    (he : ss ++ [τ] = σ::σs) : L.Remaining r σ σs := by
  induction ss generalizing σ σs with
  | nil =>
    cases he
    exact ⟨L',hp,hcut,hτ⟩
  | cons ρ ss ih =>
    rw [List.cons_append] at he
    cases he
    cases hrest : ss ++ [τ] with
    | nil => exact absurd hrest (by simp)
    | cons σ' σs =>
      exact ⟨hss ρ (by simp),ih (fun σ h => hss σ (by simp [h])) hrest⟩

/-- Updates that the rollback takes away are not seen at a height without them. -/
theorem asOf_upTo_untouched {r h : Nat} {l : History Nat Bytes}
    (hl : ∀ e ∈ l, ¬(r < e.1 ∧ e.1 ≤ h)) : asOf h (upTo r l) = asOf h l := by
  have hsame : upTo h (upTo r l) = upTo h l := by
    rw [upTo_upTo]
    apply List.filter_congr
    intro e he
    have hn := hl e he
    simp only [decide_eq_decide]
    omega
  rw [asOf, hsame, asOf]

/-- A lookup in progress ends with the value `o`, and all it goes on to look up are update records of
the key that the store has. -/
structure Underway (σ : Store) (L : Ledger) (key : Bytes) (o : Option Bytes) (p : Lookup) : Prop where
  result : p.run (KV.get σ) = .ok o
  asked : ∀ name ∈ p.asked (KV.get σ), ∃ i < (L.history key).length, name = updateKey key i

namespace Underway

variable {σ σ' : Store} {L L' : Ledger} {key : Bytes} {o : Option Bytes} {p : Lookup} {h : Nat}

theorem start (hL : L.Standing) (hσ : Represents σ L) (key : Bytes) (h : Nat) :
    Underway σ L key (asOf h (L.history key))
      (searchAfterLength key h (KV.get σ (lengthKey key))) := by
  constructor
  · rw [run_searchAfterLength]
    exact hL.getAtHeight hσ key h
  · intro name hname
    obtain ⟨lengthBytes,hget,i,hi,rfl⟩ := asked_searchAfterLength hname
    obtain ⟨n,_,hs⟩ := hL.sound
    have hparse := hσ.holdsHistories.parse_length (hs.short key)
    rw [hget, Option.map_some, Option.getD_some] at hparse
    exact ⟨i,hparse ▸ hi,rfl⟩

theorem next {name : Bytes} {next : Option Bytes → Lookup}
    (hp : Underway σ L key o (.ask name next)) : Underway σ L key o (next (KV.get σ name)) where
  result := hp.result
  asked name' h := hp.asked name' (List.mem_cons_of_mem name h)

/-- A change that leaves the records the lookup goes on to ask for. -/
theorem frame (hp : Underway σ L key o p)
    (hget : ∀ name ∈ p.asked (KV.get σ), KV.get σ' name = KV.get σ name)
    (hlen : ∀ i, updateKey key i ∈ p.asked (KV.get σ) → i < (L'.history key).length) :
    Underway σ' L' key o p := by
  obtain ⟨hrun,hasked⟩ := Reading.run_congr hget
  constructor
  · rw [hrun]
    exact hp.result
  · intro name hname
    rw [hasked] at hname
    obtain ⟨i,_,rfl⟩ := hp.asked name hname
    exact ⟨i,hlen i hname,rfl⟩

private theorem plain {n : Nat} (hp : Underway σ L key o p) (hs : L.Sound n) {name : Bytes}
    (hname : name ∈ p.asked (KV.get σ)) : ¬Reserved key := by
  intro hr
  obtain ⟨i,hi,_⟩ := hp.asked name hname
  rw [hs.reserved key hr] at hi
  exact absurd hi (Nat.not_lt_zero i)

private theorem below (hp : Underway σ L key o p) {i : Nat}
    (hi : updateKey key i ∈ p.asked (KV.get σ)) : i < (L.history key).length := by
  obtain ⟨j,hj,he⟩ := hp.asked _ hi
  have hr : Record.update key i = Record.update key j := Record.name_injective he
  cases hr
  exact hj

/-- New updates are appended behind the records a lookup asks for. -/
theorem append {n : Nat} (hp : Underway σ L key o p) (hs : L.Sound n) (hσ : Represents σ L)
    (hσ' : Represents σ' L') {l : History Nat Bytes} (hl : L'.history key = L.history key ++ l) :
    Underway σ' L' key o p := by
  apply hp.frame
  · intro name hname
    have hk := hp.plain hs hname
    obtain ⟨i,hi,rfl⟩ := hp.asked name hname
    rw [hσ'.get_update hk, hσ.get_update hk, hl, List.getElem?_append_left hi]
  · intro i hi
    have hlt := hp.below hi
    rw [hl, List.length_append]
    omega

/-- A write that takes no record from the lookup. -/
theorem kept {n : Nat} (hp : Underway σ L key o p) (hs : L.Sound n) (hσ : Represents σ L)
    (hσ' : Represents σ' L')
    (hget : ∀ name ∈ p.asked (KV.get σ), KV.get σ' name = KV.get σ name) :
    Underway σ' L' key o p := by
  apply hp.frame hget
  intro i hi
  have hk := hp.plain hs hi
  have hj := hp.below hi
  have hsame := hget _ hi
  rw [hσ'.get_update hk, hσ.get_update hk, List.getElem?_eq_getElem hj] at hsame
  by_contra hge
  rw [List.getElem?_eq_none (not_lt.mp hge)] at hsame
  cases hsame

end Underway

/-- What the indexer is doing: nothing, or the unfinished rollback of the last committed state. -/
def Server.Indexing (s : Server) (σ₀ : Store) (L₀ L : Ledger) : Prop :=
  match s.rollback with
  | none => s.store = σ₀ ∧ L = L₀
  | some u => u.target < 2^32 ∧ L₀.PartlyRolledBack u.target L ∧ L₀.Remaining u.target u.next u.later

/-- What a view that has begun rests on: the values `w` of its keys in one committed chain state,
which the last committed state `L₀` and the store `L` still have for the keys to come. -/
structure View.Follows (v : View) (s : Server) (L₀ L : Ledger) (chain : Store)
    (w : Bytes → Option Bytes) : Prop where
  committed : chain ∈ s.chains
  values : ∀ key, getAtHeight (rocksDB chain) key v.height = .ok (w key)
  sized : ∀ key value, w key = some value → value.length < 2^32
  still : ∀ key ∈ v.coming, asOf v.height (L₀.history key) = w key
  untouched : ∀ u, s.rollback = some u → ∀ key ∈ v.coming, ∀ e ∈ L₀.history key,
    ¬(u.target < e.1 ∧ e.1 ≤ v.height)
  call : ∀ c, v.call = some c → Underway s.store L c.key (w c.key) c.reads ∧
    ∀ r, c.sized = some r → r = .ok (w c.key)
  got : ∀ g ∈ v.got, g.sized = .ok (w g.key) ∧ g.fetched = .ok (w g.key)

/-- The invariant of indexer and view. -/
structure Server.Law (s : Server) (σ₀ : Store) (L₀ L : Ledger) : Prop where
  chains : s.chains.head? = some σ₀
  standing : L₀.Standing
  committed : Represents σ₀ L₀
  store : Represents s.store L
  indexing : s.Indexing σ₀ L₀ L
  view : ∀ v, s.view = some v → v.begun = true → ∃ chain w, v.Follows s L₀ L chain w

namespace Server

variable {s s' : Server} {σ₀ : Store} {L₀ L : Ledger}

theorem Law.init : init.Law ∅ .empty .empty where
  chains := rfl
  standing := .empty
  committed := .empty
  store := .empty
  indexing := ⟨rfl,rfl⟩
  view _ hv := by cases hv

private theorem Law.mem_chains (hs : s.Law σ₀ L₀ L) : σ₀ ∈ s.chains := List.mem_of_head? hs.chains

theorem Law.consistent (hs : s.Law σ₀ L₀ L) : s.ViewConsistent := by
  intro v hv
  cases hb : v.begun with
  | false =>
    have hnil : v.got = [] := by
      rw [View.begun, Bool.or_eq_false_iff] at hb
      simpa using hb.2
    refine ⟨σ₀,hs.mem_chains,?_⟩
    intro g hg
    rw [hnil] at hg
    cases hg
  | true =>
    obtain ⟨chain,w,hf⟩ := hs.view v hv hb
    refine ⟨chain,hf.committed,?_⟩
    intro g hg
    obtain ⟨hsized,hfetched⟩ := hf.got g hg
    refine ⟨⟨w g.key,hf.values g.key,hsized,hfetched⟩,?_⟩
    rw [Got.written, Got.reported, hsized, hfetched]
    cases hw : w g.key with
    | none => rfl
    | some value => exact (Nat.mod_eq_of_lt (hf.sized _ _ hw)).symm

private theorem Law.standing_store (hs : s.Law σ₀ L₀ L) : L.Standing := by
  have hi := hs.indexing
  rw [Indexing] at hi
  cases hr : s.rollback with
  | none =>
    rw [hr] at hi
    exact hi.2 ▸ hs.standing
  | some u =>
    rw [hr] at hi
    exact hs.standing.partly hi.2.1

/-- The store still has the values of the last committed state that no rollback takes away. -/
private theorem Law.asOf_store (hs : s.Law σ₀ L₀ L) {key : Bytes} {h : Nat}
    (hu : ∀ u, s.rollback = some u → ∀ e ∈ L₀.history key, ¬(u.target < e.1 ∧ e.1 ≤ h)) :
    asOf h (L.history key) = asOf h (L₀.history key) := by
  have hi := hs.indexing
  rw [Indexing] at hi
  cases hr : s.rollback with
  | none =>
    rw [hr] at hi
    rw [hi.2]
  | some u =>
    rw [hr] at hi
    obtain h' | h' := hi.2.1.history key
    · rw [h']
    · rw [h', asOf_upTo_untouched (hu u hr)]

/-- A block that is committed above the reads of the view, or beside them. -/
theorem Law.commit {t : Nat} {b : Block} (hs : s.Law σ₀ L₀ L)
    (hp : s.spares (.commit t b) = true) (hstep : s.step (.commit t b) = some s') :
    ∃ σ₁ L₁, s'.Law σ₁ L₁ L₁ := by
  rw [step] at hstep
  cases hr : s.rollback with
  | some u =>
    rw [hr] at hstep
    cases hstep
  | none =>
    cases hc : commitBlock s.store t b with
    | error e =>
      rw [hr, hc] at hstep
      cases hstep
    | ok σ =>
      simp only [hr, hc] at hstep
      split_ifs at hstep with ht
      cases hstep
      obtain ⟨hfit,hspare⟩ := (Bool.and_eq_true _ _).mp hp
      have hi := hs.indexing
      rw [Indexing, hr] at hi
      obtain ⟨hstore,rfl⟩ := hi
      obtain ⟨hrep,hstand,hlt⟩ := hs.standing.commit hs.store ht hfit hc
      refine ⟨σ,L.block t b,rfl,hstand,hrep,hrep,⟨rfl,rfl⟩,?_⟩
      intro v hv hb
      obtain ⟨chain,w,hf⟩ := hs.view v hv hb
      rw [hv, Option.all_some, hb, Bool.not_true, Bool.false_or, Bool.or_eq_true, decide_eq_true_eq,
        List.all_eq_true] at hspare
      obtain ⟨n,_,hsound⟩ := hs.standing.sound
      refine ⟨chain,w,List.mem_cons_of_mem _ hf.committed,hf.values,hf.sized,?_,(by simp),?_,hf.got⟩
      · intro key hk
        rw [← hf.still key hk]
        show asOf v.height (L.history key ++ _) = _
        obtain hh | hnone := hspare
        · apply asOf_append_of_gt
          intro e he
          obtain ⟨_,_,rfl⟩ := List.mem_map.mp he
          exact hh
        · rw [List.isEmpty_iff.mp (hnone key hk), List.map_nil, List.append_nil]
      · intro c hcall
        obtain ⟨hunder,hsized⟩ := hf.call c hcall
        exact ⟨hunder.append hsound hs.store hrep rfl,hsized⟩

/-- The start of a rollback that undoes nothing of what the view goes on to read. -/
theorem Law.beginRollback {r : Nat} (hs : s.Law σ₀ L₀ L)
    (hp : s.spares (.beginRollback r) = true) (hstep : s.step (.beginRollback r) = some s') :
    s'.Law σ₀ L₀ L := by
  rw [step] at hstep
  cases hr : s.rollback with
  | some u =>
    rw [hr] at hstep
    cases hstep
  | none =>
    have hi := hs.indexing
    rw [Indexing, hr] at hi
    obtain ⟨hstore,rfl⟩ := hi
    obtain ⟨n,hn,hsound⟩ := hs.standing.sound
    obtain ⟨ss,τ,L',hrun,hpoints,hpart,hcut,hτ⟩ := rollbackToHeight_points hs.store hsound hn
      hs.standing.covered (hs.standing.getIndexedHeight hs.store) hs.standing.below r
    rw [hr, hrun] at hstep
    cases hsplit : ss ++ [τ] with
    | nil => exact absurd hsplit (by simp)
    | cons σ σs =>
      simp only [hsplit] at hstep
      split_ifs at hstep with hlt
      cases hstep
      refine ⟨hs.chains,hs.standing,hs.committed,hs.store,⟨hlt,.refl L r,?_⟩,?_⟩
      · refine .of_points hpart hcut hτ ss ?_ hsplit
        intro ρ hρ
        obtain ⟨j,hj⟩ := List.mem_iff_getElem?.mp hρ
        exact hpoints (j+1) ρ hj
      · intro v hv hb
        obtain ⟨chain,w,hf⟩ := hs.view v hv hb
        have hu : v.untouched s.store r = true := by
          rw [spares, hv, Option.all_some, hb] at hp
          exact hp
        refine ⟨chain,w,hf.committed,hf.values,hf.sized,hf.still,?_,hf.call,hf.got⟩
        intro u hu' key hk
        cases hu'
        exact hs.standing.untouched hs.store hu hk

private theorem keeps_call {v : View} {u : Unfinished} (hv : s.view = some v)
    (hu : s.rollback = some u) (hp : s.spares .rollbackWrite = true) {c : HostCall}
    (hc : v.call = some c) :
    ∀ name ∈ c.reads.asked (KV.get s.store), KV.get u.next name = KV.get s.store name := by
  rw [spares, hv, Option.all_some, hu, Option.all_some, View.keepsReads, hc, Option.all_some,
    List.all_eq_true] at hp
  exact fun name hname => eq_of_beq (hp name hname)

/-- A write of a rollback that takes nothing from the lookup in progress. -/
theorem Law.rollbackWrite (hs : s.Law σ₀ L₀ L) (hp : s.spares .rollbackWrite = true)
    (hstep : s.step .rollbackWrite = some s') : ∃ σ₁ L₁ L', s'.Law σ₁ L₁ L' := by
  rw [step] at hstep
  obtain ⟨n,_,hsound⟩ := hs.standing_store.sound
  cases hr : s.rollback with
  | none =>
    rw [hr] at hstep
    cases hstep
  | some u =>
    have hi := hs.indexing
    rw [Indexing, hr] at hi
    obtain ⟨r,σ,σs⟩ := u
    obtain ⟨hlt,hpart,hrest⟩ := hi
    cases σs with
    | nil =>
      simp only [hr] at hstep
      cases hstep
      obtain ⟨L',hpart',hcut,hrep⟩ := hrest
      refine ⟨σ,L'.setIndexed r,L'.setIndexed r,rfl,hs.standing.rolledBack hlt hpart' hcut,hrep,hrep,
        ⟨rfl,rfl⟩,?_⟩
      intro v hv hb
      obtain ⟨chain,w,hf⟩ := hs.view v hv hb
      refine ⟨chain,w,List.mem_cons_of_mem _ hf.committed,hf.values,hf.sized,?_,(by simp),?_,hf.got⟩
      · intro key hk
        show asOf v.height (L'.history key) = _
        rw [hcut, asOf_upTo_untouched (hf.untouched _ hr key hk), hf.still key hk]
      · intro c hc
        obtain ⟨hunder,hsized⟩ := hf.call c hc
        exact ⟨hunder.kept hsound hs.store hrep (keeps_call (s := s) hv hr hp hc),hsized⟩
    | cons σ' σs =>
      simp only [hr] at hstep
      cases hstep
      obtain ⟨⟨L',hpart',hrep⟩,hrest⟩ := hrest
      refine ⟨σ₀,L₀,L',hs.chains,hs.standing,hs.committed,hrep,⟨hlt,hpart',hrest⟩,?_⟩
      intro v hv hb
      obtain ⟨chain,w,hf⟩ := hs.view v hv hb
      refine ⟨chain,w,hf.committed,hf.values,hf.sized,hf.still,?_,?_,hf.got⟩
      · intro u hu
        cases hu
        exact hf.untouched ⟨r,σ,σ'::σs⟩ hr
      · intro c hc
        obtain ⟨hunder,hsized⟩ := hf.call c hc
        exact ⟨hunder.kept hsound hs.store hrep (keeps_call (s := s) hv hr hp hc),hsized⟩

theorem Law.startView {h : Nat} {keys : List Bytes} (hs : s.Law σ₀ L₀ L)
    (hstep : s.step (.startView h keys) = some s') : s'.Law σ₀ L₀ L := by
  rw [step] at hstep
  split_ifs at hstep
  cases hstep
  refine ⟨hs.chains,hs.standing,hs.committed,hs.store,hs.indexing,?_⟩
  intro v hv hb
  cases hv
  cases hb

/-- A host call that begins on a key the view goes on to get. -/
private theorem Law.underway {v : View} {chain : Store} {w : Bytes → Option Bytes} {key : Bytes}
    (hs : s.Law σ₀ L₀ L) (hf : v.Follows s L₀ L chain w) (hk : key ∈ v.coming) :
    Underway s.store L key (w key)
      (searchAfterLength key v.height (KV.get s.store (lengthKey key))) := by
  rw [← hf.still key hk, ← hs.asOf_store fun u hu => hf.untouched u hu key hk]
  exact .start hs.standing_store hs.store key v.height

/-- A view that begins takes the last committed state for its chain. -/
private theorem Law.begins {v : View} (hs : s.Law σ₀ L₀ L) (hv : s.view = some v)
    (hcall : v.call = none) (hgot : v.got = []) (hp : s.spares .viewRead = true) :
    v.Follows s L₀ L σ₀ fun key => asOf v.height (L₀.history key) where
  committed := hs.mem_chains
  values key := hs.standing.getAtHeight hs.committed key v.height
  sized _ _ hvalue := hs.standing.asOf_length hvalue
  still _ _ := rfl
  untouched u hu key hk := by
    have hhead : s.chains.headD ∅ = σ₀ := by
      rw [List.headD_eq_head?_getD, hs.chains]
      rfl
    rw [spares, hv, Option.all_some, hu, Option.all_some, hhead] at hp
    exact hs.standing.untouched hs.committed hp hk
  call c hc := by
    rw [hcall] at hc
    cases hc
  got g hg := by
    rw [hgot] at hg
    cases hg

private theorem Law.follows {v : View} (hs : s.Law σ₀ L₀ L) (hv : s.view = some v)
    (hp : s.spares .viewRead = true) : ∃ chain w, v.Follows s L₀ L chain w := by
  cases hb : v.begun with
  | true => exact hs.view v hv hb
  | false =>
    rw [View.begun, Bool.or_eq_false_iff] at hb
    obtain ⟨hcall,hgot⟩ := hb
    exact ⟨_,_,hs.begins hv (by simpa using hcall) (by simpa using hgot) hp⟩

/-- A step of the view: one case for each thing that it can be at. -/
theorem Law.viewRead (hs : s.Law σ₀ L₀ L) (hp : s.spares .viewRead = true)
    (hstep : s.step .viewRead = some s') : s'.Law σ₀ L₀ L := by
  rw [step] at hstep
  obtain ⟨v,hv,hstep⟩ := Option.bind_eq_some_iff.mp hstep
  obtain ⟨v',hread,hs'⟩ := Option.map_eq_some_iff.mp hstep
  subst hs'
  obtain ⟨chain,w,hf⟩ := hs.follows hv hp
  refine ⟨hs.chains,hs.standing,hs.committed,hs.store,hs.indexing,?_⟩
  intro v'' hv'' _
  obtain rfl := Option.some.inj hv''
  refine ⟨chain,w,?_⟩
  rw [View.read] at hread
  cases hcall : v.call with
  | none =>
    cases htodo : v.todo with
    | nil =>
      simp only [hcall, htodo] at hread
      cases hread
    | cons key todo =>
      simp only [hcall, htodo] at hread
      cases hread
      have hcoming : v.coming = key::todo := by rw [View.coming, hcall, htodo]; rfl
      refine ⟨hf.committed,hf.values,hf.sized,?_,?_,?_,hf.got⟩
      · intro key' hk
        exact hf.still key' (hcoming ▸ hk)
      · intro u hu key' hk
        exact hf.untouched u hu key' (hcoming ▸ hk)
      · intro c hc
        cases hc
        exact ⟨hs.underway hf (by rw [hcoming]; exact List.mem_cons_self),(by simp)⟩
  | some c =>
    obtain ⟨key,sized,reads⟩ := c
    obtain ⟨hunder,hsized⟩ := hf.call _ hcall
    have hcoming : v.coming = key::v.todo := by rw [View.coming, hcall]; rfl
    cases reads with
    | ask name next =>
      simp only [hcall] at hread
      cases hread
      refine ⟨hf.committed,hf.values,hf.sized,?_,?_,?_,hf.got⟩
      · intro key' hk
        exact hf.still key' (hcoming ▸ hk)
      · intro u hu key' hk
        exact hf.untouched u hu key' (hcoming ▸ hk)
      · intro c hc
        cases hc
        exact ⟨hunder.next,hsized⟩
    | done r =>
      have hr : r = .ok (w key) := hunder.result
      cases sized with
      | none =>
        simp only [hcall] at hread
        cases hread
        refine ⟨hf.committed,hf.values,hf.sized,?_,?_,?_,hf.got⟩
        · intro key' hk
          exact hf.still key' (hcoming ▸ hk)
        · intro u hu key' hk
          exact hf.untouched u hu key' (hcoming ▸ hk)
        · intro c hc
          cases hc
          refine ⟨hs.underway hf (by rw [hcoming]; exact List.mem_cons_self),?_⟩
          intro r' hr'
          cases hr'
          exact hr
      | some sized =>
        simp only [hcall] at hread
        cases hread
        refine ⟨hf.committed,hf.values,hf.sized,?_,?_,(by simp),?_⟩
        · intro key' hk
          exact hf.still key' (hcoming ▸ List.mem_cons_of_mem key hk)
        · intro u hu key' hk
          exact hf.untouched u hu key' (hcoming ▸ List.mem_cons_of_mem key hk)
        · intro g hg
          rcases List.mem_append.mp hg with hg | hg
          · exact hf.got g hg
          · obtain rfl := List.mem_singleton.mp hg
            exact ⟨hsized sized rfl,hr⟩

theorem Law.step {a : Action} (hs : s.Law σ₀ L₀ L) (hp : s.spares a = true)
    (hstep : s.step a = some s') : ∃ σ₁ L₁ L', s'.Law σ₁ L₁ L' := by
  cases a with
  | commit t b =>
    obtain ⟨σ₁,L₁,h⟩ := hs.commit hp hstep
    exact ⟨σ₁,L₁,L₁,h⟩
  | beginRollback r => exact ⟨σ₀,L₀,L,hs.beginRollback hp hstep⟩
  | rollbackWrite => exact hs.rollbackWrite hp hstep
  | startView h keys => exact ⟨σ₀,L₀,L,hs.startView hstep⟩
  | viewRead => exact ⟨σ₀,L₀,L,hs.viewRead hp hstep⟩

/-- In a run in which indexer and view spare each other the view reads one chain state. -/
theorem views_consistent {s : Server} (h : Run step (fun s a => s.spares a = true) init s) :
    s.ViewConsistent := by
  have hlaw : ∃ σ₀ L₀ L, s.Law σ₀ L₀ L := by
    apply h.invariant (I := fun s => ∃ σ₀ L₀ L, s.Law σ₀ L₀ L) ⟨_,_,_,Law.init⟩
    rintro t a t' ⟨σ₀,L₀,L,hs⟩ hp hstep
    exact hs.step hp hstep
  obtain ⟨σ₀,L₀,L,hs⟩ := hlaw
  exact hs.consistent

private def lowBlock : Block := ⟨.single 'a' [1],[7],[8]⟩

private def highBlock : Block := ⟨.single 'a' [2,2],[9],[10]⟩

/-- A view at height 0 gets a key while a block is committed and undone, each between two reads. -/
private def sparingActions : List Action :=
  [.commit 0 lowBlock,.startView 0 [ascii "a"],.viewRead,.commit 1 highBlock,.viewRead,.viewRead,
    .viewRead,.beginRollback 0,.rollbackWrite,.rollbackWrite,.viewRead,.viewRead]

theorem views_consistent_beside_reorg :
    ∃ s, Run step (fun s a => s.spares a = true) init s ∧ s.ViewConsistent ∧
      s.view.any (fun v => v.got.any fun g => g.written == [1]) = true := by
  have hrun : (follow step (fun s a => s.spares a = true) init sparingActions).any
      (fun s => s.view.any fun v => v.got.any fun g => g.written == [1]) = true := by decide +kernel
  obtain ⟨s,hs,hgot⟩ := Run.exists_of_follow (fun _ _ _ h => h) hrun
  exact ⟨s,hs,views_consistent hs,hgot⟩

/-- A view at height 1 sizes a key before the block of that height is undone and fetches it after. -/
private def tornActions : List Action :=
  [.commit 0 lowBlock,.commit 1 highBlock,.startView 1 [ascii "a"],.viewRead,.viewRead,.viewRead,
    .beginRollback 0,.rollbackWrite,.rollbackWrite,.viewRead,.viewRead]

theorem view_torn_by_reorg : ∃ s, Run step (fun _ _ => True) init s ∧ ¬s.ViewConsistent := by
  have hrun : (follow step (fun _ _ => True) init tornActions).any
      (fun s => s.view.any fun v => v.got.any fun g => g.written.length != g.reported) = true := by
    decide +kernel
  obtain ⟨s,hs,hgot⟩ := Run.exists_of_follow (fun _ _ _ h => h) hrun
  refine ⟨s,hs,?_⟩
  intro hcons
  obtain ⟨v,hv,hany⟩ := (Option.any_eq_true _ _).mp hgot
  obtain ⟨g,hg,hne⟩ := List.any_eq_true.mp hany
  obtain ⟨chain,_,hall⟩ := hcons v hv
  exact (bne_iff_ne.mp hne) (hall g hg).2

end Server

end Metashrew

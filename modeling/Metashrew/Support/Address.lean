import Metashrew.Lib.Bytes

namespace Metashrew.Address

/-- The versions 0 to 16. -/
abbrev WitnessVersion := Fin 17

structure WitnessProgram where
  version : WitnessVersion
  program : Bytes

def p2pkhTemplate (hash : Bytes) : Bytes := [0x76,0xa9,0x14] ++ hash ++ [0x88,0xac]

def p2shTemplate (hash : Bytes) : Bytes := [0xa9,0x14] ++ hash ++ [0x87]

def versionOpcode (version : WitnessVersion) : UInt8 :=
  if version = 0 then 0 else 0x50+version.val.toUInt8

def witnessTemplate (version : WitnessVersion) (program : Bytes) : Bytes :=
  versionOpcode version :: program.length.toUInt8 :: program

/-- What the payloads use of the Bitcoin library: it recognizes and builds the standard templates. -/
structure ScriptLibrary where
  isP2pkh : Bytes → Bool
  isP2sh : Bytes → Bool
  isWitnessProgram : Bytes → Bool
  witnessVersion : UInt8 → Except String WitnessVersion
  witnessProgram : WitnessVersion → Bytes → Except String WitnessProgram
  newP2pkh : Bytes → Bytes
  newP2sh : Bytes → Bytes
  newWitnessProgram : WitnessProgram → Bytes
  isP2pkh_iff : ∀ script, isP2pkh script = true ↔
    ∃ hash, hash.length = 20 ∧ script = p2pkhTemplate hash
  isP2sh_iff : ∀ script, isP2sh script = true ↔
    ∃ hash, hash.length = 20 ∧ script = p2shTemplate hash
  isWitnessProgram_iff : ∀ script, isWitnessProgram script = true ↔
    ∃ version program, 2 ≤ program.length ∧ program.length ≤ 40 ∧
      script = witnessTemplate version program
  witnessVersion_iff : ∀ opcode version, witnessVersion opcode = .ok version ↔
    opcode = versionOpcode version
  witnessProgram_ok : ∀ version program built, witnessProgram version program = .ok built →
    built = ⟨version,program⟩
  newP2pkh_eq : ∀ hash, newP2pkh hash = p2pkhTemplate hash
  newP2sh_eq : ∀ hash, newP2sh hash = p2shTemplate hash
  newWitnessProgram_eq : ∀ w, newWitnessProgram w = witnessTemplate w.version w.program

inductive Payload where
  | pubkeyHash (hash : Bytes)
  | scriptHash (hash : Bytes)
  | witnessProgram (program : WitnessProgram)

namespace Payload

def fromScript (lib : ScriptLibrary) (script : Bytes) : Except String Payload :=
  if lib.isP2pkh script then .ok (.pubkeyHash ((script.drop 3).take 20))
  else if lib.isP2sh script then .ok (.scriptHash ((script.drop 2).take 20))
  else if lib.isWitnessProgram script then
    match script.head? with
    | none => .error "witness_version guarantees len() > 4"
    | some opcode =>
      match lib.witnessVersion opcode with
      | .error e => .error e
      | .ok version => (lib.witnessProgram version (script.drop 2)).map .witnessProgram
  else .error "unrecognized script"

/-- The script that pays to the payload. -/
def scriptPubkey (lib : ScriptLibrary) : Payload → Bytes
  | .pubkeyHash hash => lib.newP2pkh hash
  | .scriptHash hash => lib.newP2sh hash
  | .witnessProgram program => lib.newWitnessProgram program

/-- The comparison that builds no script; of a witness program it compares the program. -/
def matchesScriptPubkey (lib : ScriptLibrary) (payload : Payload) (script : Bytes) : Bool :=
  match payload with
  | .pubkeyHash hash => lib.isP2pkh script && (script.drop 3).take 20 == hash
  | .scriptHash hash => lib.isP2sh script && (script.drop 2).take 20 == hash
  | .witnessProgram program => lib.isWitnessProgram script && script.drop 2 == program.program

/-- The script carries the payload's witness program under another version. -/
def OtherVersion (payload : Payload) (script : Bytes) : Prop :=
  ∃ version other program, payload = .witnessProgram ⟨version,program⟩ ∧ other ≠ version ∧
    script = witnessTemplate other program

/-- The comparison agrees with the script that the payload builds, which is the one it came from. -/
structure Exact (lib : ScriptLibrary) (source : Bytes) (payload : Payload) (script : Bytes) :
    Prop where
  matches_iff : matchesScriptPubkey lib payload script = true ↔ script = scriptPubkey lib payload
  builds : scriptPubkey lib payload = source

variable {lib : ScriptLibrary} {source script : Bytes} {payload : Payload}

theorem slice_p2pkhTemplate {hash : Bytes} (h : hash.length = 20) :
    ((p2pkhTemplate hash).drop 3).take 20 = hash := by
  rw [← h]
  simp [p2pkhTemplate]

theorem slice_p2shTemplate {hash : Bytes} (h : hash.length = 20) :
    ((p2shTemplate hash).drop 2).take 20 = hash := by
  rw [← h]
  simp [p2shTemplate]

theorem versionOpcode_injective {v w : WitnessVersion} (h : versionOpcode v = versionOpcode w) :
    v = w := by
  revert v w
  decide

theorem witnessTemplate_inj {v w : WitnessVersion} {program program' : Bytes} :
    witnessTemplate v program = witnessTemplate w program' ↔ v = w ∧ program = program' := by
  constructor
  · intro h
    obtain ⟨hv,_,hp⟩ : versionOpcode v = versionOpcode w ∧
        program.length.toUInt8 = program'.length.toUInt8 ∧ program = program' := by
      simpa [witnessTemplate] using h
    exact ⟨versionOpcode_injective hv,hp⟩
  · rintro ⟨rfl,rfl⟩
    rfl

/-- Of each kind, a script is the template of the payload read from it. -/
theorem fromScript_cases (h : fromScript lib source = .ok payload) :
    (∃ hash, hash.length = 20 ∧ payload = .pubkeyHash hash ∧ source = p2pkhTemplate hash) ∨
    (∃ hash, hash.length = 20 ∧ payload = .scriptHash hash ∧ source = p2shTemplate hash) ∨
    (∃ version program, 2 ≤ program.length ∧ program.length ≤ 40 ∧
      payload = .witnessProgram ⟨version,program⟩ ∧ source = witnessTemplate version program) := by
  rw [fromScript] at h
  split_ifs at h with hpkh hsh hwit
  · obtain ⟨hash,hl,rfl⟩ := (lib.isP2pkh_iff source).mp hpkh
    cases h
    exact .inl ⟨hash,hl,by rw [slice_p2pkhTemplate hl],rfl⟩
  · obtain ⟨hash,hl,rfl⟩ := (lib.isP2sh_iff source).mp hsh
    cases h
    exact .inr (.inl ⟨hash,hl,by rw [slice_p2shTemplate hl],rfl⟩)
  · obtain ⟨version,program,h2,h40,rfl⟩ := (lib.isWitnessProgram_iff source).mp hwit
    have hv : lib.witnessVersion (versionOpcode version) = .ok version :=
      (lib.witnessVersion_iff _ _).mpr rfl
    have hd : (witnessTemplate version program).drop 2 = program := rfl
    rw [hd, witnessTemplate, List.head?_cons] at h
    dsimp only at h
    rw [hv] at h
    dsimp only at h
    cases hw : lib.witnessProgram version program with
    | error e =>
      rw [hw] at h
      cases h
    | ok built =>
      rw [hw, lib.witnessProgram_ok _ _ _ hw] at h
      cases h
      exact .inr (.inr ⟨version,program,h2,h40,rfl,rfl⟩)

theorem matches_pubkeyHash {hash : Bytes} (hl : hash.length = 20) :
    matchesScriptPubkey lib (.pubkeyHash hash) script = true ↔ script = p2pkhTemplate hash := by
  rw [matchesScriptPubkey, Bool.and_eq_true, lib.isP2pkh_iff, beq_iff_eq]
  constructor
  · rintro ⟨⟨found,hf,rfl⟩,he⟩
    rw [slice_p2pkhTemplate hf] at he
    rw [he]
  · intro hs
    rw [hs]
    exact ⟨⟨hash,hl,rfl⟩,slice_p2pkhTemplate hl⟩

theorem matches_scriptHash {hash : Bytes} (hl : hash.length = 20) :
    matchesScriptPubkey lib (.scriptHash hash) script = true ↔ script = p2shTemplate hash := by
  rw [matchesScriptPubkey, Bool.and_eq_true, lib.isP2sh_iff, beq_iff_eq]
  constructor
  · rintro ⟨⟨found,hf,rfl⟩,he⟩
    rw [slice_p2shTemplate hf] at he
    rw [he]
  · intro hs
    rw [hs]
    exact ⟨⟨hash,hl,rfl⟩,slice_p2shTemplate hl⟩

/-- Of a witness program every version matches. -/
theorem matches_witnessProgram {version : WitnessVersion} {program : Bytes}
    (h2 : 2 ≤ program.length) (h40 : program.length ≤ 40) :
    matchesScriptPubkey lib (.witnessProgram ⟨version,program⟩) script = true ↔
      ∃ other, script = witnessTemplate other program := by
  rw [matchesScriptPubkey, Bool.and_eq_true, lib.isWitnessProgram_iff, beq_iff_eq]
  constructor
  · rintro ⟨⟨other,found,_,_,rfl⟩,he⟩
    have hp : found = program := he
    exact ⟨other,by rw [hp]⟩
  · rintro ⟨other,rfl⟩
    exact ⟨⟨other,program,h2,h40,rfl⟩,rfl⟩

/-- The comparison is exact unless the script carries the payload's program under another version. -/
theorem matches_exact_iff (lib : ScriptLibrary) (source script : Bytes) (payload : Payload)
    (h : fromScript lib source = .ok payload) :
    Exact lib source payload script ↔ ¬OtherVersion payload script := by
  rcases fromScript_cases h with ⟨hash,hl,rfl,rfl⟩ | ⟨hash,hl,rfl,rfl⟩ | ⟨version,program,h2,h40,rfl,rfl⟩
  · have he : Exact lib (p2pkhTemplate hash) (.pubkeyHash hash) script := by
      refine ⟨?_,lib.newP2pkh_eq hash⟩
      rw [matches_pubkeyHash hl, scriptPubkey, lib.newP2pkh_eq]
    have hn : ¬OtherVersion (.pubkeyHash hash) script := by
      rintro ⟨_,_,_,hp,_⟩
      cases hp
    exact iff_of_true he hn
  · have he : Exact lib (p2shTemplate hash) (.scriptHash hash) script := by
      refine ⟨?_,lib.newP2sh_eq hash⟩
      rw [matches_scriptHash hl, scriptPubkey, lib.newP2sh_eq]
    have hn : ¬OtherVersion (.scriptHash hash) script := by
      rintro ⟨_,_,_,hp,_⟩
      cases hp
    exact iff_of_true he hn
  · have hb := lib.newWitnessProgram_eq ⟨version,program⟩
    constructor
    · intro he hother
      obtain ⟨_,other,_,hp,hne,rfl⟩ := hother
      cases hp
      have hs := he.matches_iff.mp ((matches_witnessProgram h2 h40).mpr ⟨other,rfl⟩)
      rw [scriptPubkey, hb] at hs
      exact hne (witnessTemplate_inj.mp hs).1
    · intro hn
      refine ⟨?_,hb⟩
      rw [matches_witnessProgram h2 h40, scriptPubkey, hb]
      constructor
      · intro hs
        obtain ⟨other,rfl⟩ := hs
        by_contra hne
        apply hn
        refine ⟨version,other,program,rfl,?_,rfl⟩
        intro hv
        exact hne (by rw [hv])
      · intro hs
        exact ⟨version,hs⟩

private def opcodeVersion (opcode : UInt8) : Option WitnessVersion :=
  (List.finRange 17).find? fun version => versionOpcode version == opcode

private theorem opcodeVersion_iff (opcode : UInt8) (version : WitnessVersion) :
    opcodeVersion opcode = some version ↔ opcode = versionOpcode version := by
  constructor
  · intro h
    have hf := List.find?_some h
    exact (beq_iff_eq.mp hf).symm
  · intro h
    subst h
    revert version
    decide

private def standardWitnessProgram : Bytes → Bool
  | opcode::push::program =>
    decide (2 ≤ program.length ∧ program.length ≤ 40 ∧ push = program.length.toUInt8) &&
      (opcodeVersion opcode).isSome
  | _ => false

private theorem standardWitnessProgram_iff (script : Bytes) :
    standardWitnessProgram script = true ↔ ∃ version program, 2 ≤ program.length ∧
      program.length ≤ 40 ∧ script = witnessTemplate version program := by
  constructor
  · intro h
    match script with
    | opcode::push::program =>
      rw [standardWitnessProgram, Bool.and_eq_true, decide_eq_true_eq] at h
      obtain ⟨⟨h2,h40,rfl⟩,hv⟩ := h
      obtain ⟨version,hv⟩ := Option.isSome_iff_exists.mp hv
      rw [opcodeVersion_iff] at hv
      exact ⟨version,program,h2,h40,by rw [hv, witnessTemplate]⟩
  · rintro ⟨version,program,h2,h40,rfl⟩
    rw [witnessTemplate, standardWitnessProgram, Bool.and_eq_true, decide_eq_true_eq,
      (opcodeVersion_iff _ version).mpr rfl]
    exact ⟨⟨h2,h40,rfl⟩,rfl⟩

/-- The templates as they are standardized, with witness programs of every length. -/
private def standardScripts : ScriptLibrary where
  isP2pkh script := script.length == 25 && script == p2pkhTemplate ((script.drop 3).take 20)
  isP2sh script := script.length == 23 && script == p2shTemplate ((script.drop 2).take 20)
  isWitnessProgram := standardWitnessProgram
  witnessVersion opcode :=
    match opcodeVersion opcode with
    | some version => .ok version
    | none => .error "invalid witness script version"
  witnessProgram version program :=
    if version = 0 ∧ program.length ≠ 20 ∧ program.length ≠ 32 then
      .error "program length is not valid for segwit version 0"
    else .ok ⟨version,program⟩
  newP2pkh := p2pkhTemplate
  newP2sh := p2shTemplate
  newWitnessProgram w := witnessTemplate w.version w.program
  isP2pkh_iff script := by
    rw [Bool.and_eq_true, beq_iff_eq, beq_iff_eq]
    constructor
    · intro h
      refine ⟨_,?_,h.2⟩
      rw [List.length_take, List.length_drop, h.1]
      rfl
    · rintro ⟨hash,hl,rfl⟩
      rw [slice_p2pkhTemplate hl]
      simp [p2pkhTemplate, hl]
  isP2sh_iff script := by
    rw [Bool.and_eq_true, beq_iff_eq, beq_iff_eq]
    constructor
    · intro h
      refine ⟨_,?_,h.2⟩
      rw [List.length_take, List.length_drop, h.1]
      rfl
    · rintro ⟨hash,hl,rfl⟩
      rw [slice_p2shTemplate hl]
      simp [p2shTemplate, hl]
  isWitnessProgram_iff := standardWitnessProgram_iff
  witnessVersion_iff opcode version := by
    rw [← opcodeVersion_iff]
    cases opcodeVersion opcode <;> simp
  witnessProgram_ok version program built h := by
    split_ifs at h
    exact (Except.ok.inj h).symm
  newP2pkh_eq _ := rfl
  newP2sh_eq _ := rfl
  newWitnessProgram_eq _ := rfl

private def program32 : Bytes := List.replicate 32 7

/-- The script of version 0 that a payload came from is matched exactly. -/
theorem matches_exact_own_script :
    Exact standardScripts (witnessTemplate 0 program32) (.witnessProgram ⟨0,program32⟩)
      (witnessTemplate 0 program32) := by
  apply (matches_exact_iff standardScripts _ _ _ (by rfl)).mpr
  rintro ⟨version,other,program,hp,hne,hs⟩
  cases hp
  exact hne (witnessTemplate_inj.mp hs).1.symm

/-- The payload of a script hash of version 0 matches the output key of version 1 with its bytes. -/
theorem matches_other_version :
    ¬∀ source payload, fromScript standardScripts source = .ok payload →
      ∀ script, Exact standardScripts source payload script := by
  intro h
  have he := (h (witnessTemplate 0 program32) (.witnessProgram ⟨0,program32⟩) (by rfl)
    (witnessTemplate 1 program32)).matches_iff
  revert he
  decide +kernel

end Payload

end Metashrew.Address

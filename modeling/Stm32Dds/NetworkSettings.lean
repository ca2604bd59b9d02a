import Stm32Dds.ConfigStore
import Stm32Dds.DecimalText
import Stm32Dds.ScpiCallbacks

set_option autoImplicit false

namespace Stm32Dds.Network
open Bytes FlashMemory Eeprom ConfigStore DecimalText Scpi

inductive Setting
  | address | submask | gateway
  deriving DecidableEq, Repr

def field (c : Config) : Setting → Quad
  | .address => c.address
  | .submask => c.submask
  | .gateway => c.gateway

def setField (c : Config) (q : Quad) : Setting → Config
  | .address => { c with address := q }
  | .submask => { c with submask := q }
  | .gateway => { c with gateway := q }

def resultCode : ScpiResult → Int
  | .ok => 1
  | .err => -1

/-- sscanf(buf,"%hhu.%hhu.%hhu.%hhu",…) stores each octet it has converted. -/
def scanQuad (buf : List Char) : List Byte := (scanDotted 4 buf).map (BitVec.ofNat 8)

def overwrite (target : Quad) (octets : List Byte) : Quad := fun i => (octets[i.val]?).getD (target i)

structure Parsed where
  result : ScpiResult
  errors : List ScpiError
  target : Quad

/-- The input is what SCPI_ParamCharacters gives: its characters, or the error it has
pushed. -/
def scpiParamIpAddress (input : Except ScpiError (List Char)) (target : Quad) : Parsed :=
  match input with
  | .error e => ⟨.err,[e,.illegalParameterValue],target⟩
  | .ok chars =>
    if chars.length > 15 then ⟨.err,[.illegalParameterValue],target⟩
    else
      -- the buffer is a C string: it ends at the first NUL
      let octets := scanQuad (chars.takeWhile fun c => c.toNat ≠ 0)
      if octets.length ≠ 4 then ⟨.err,[.illegalParameterValue],overwrite target octets⟩
      else ⟨.ok,[],overwrite target octets⟩

def scpiPrintIpAddress (source : Quad) : List Char :=
  joinDots (List.ofFn fun i => Nat.toDigits 10 (source i).toNat)

structure NetState where
  flash : Flash
  errors : List ScpiError

section
variable (crc : List (BitVec 32) → BitVec 32)

/-- The body the three callbacks share; `n` is the member the parameter is parsed into. -/
def setNetwork (n : Setting) (input : Except ScpiError (List Char)) (s : NetState) :
    ScpiResult × NetState :=
  let (ptr,flash) := configGet crc s.flash
  let conf := Config.read flash.mem ptr
  let parsed := scpiParamIpAddress input (field conf n)
  let errors := s.errors ++ parsed.errors
  -- `!result`: neither of the two codes is zero
  if resultCode parsed.result = 0 then (.err,⟨flash,errors⟩)
  else (.ok,⟨configWrite crc (setField conf parsed.target n) flash,errors⟩)

def scpiCallbackSystemNetworkAddress := setNetwork crc .address

def scpiCallbackSystemNetworkSubmask := setNetwork crc .submask

/-- Parses into the submask. -/
def scpiCallbackSystemNetworkGateway := setNetwork crc .submask

def queryNetwork (n : Setting) (s : NetState) : List Char × NetState :=
  let (ptr,flash) := configGet crc s.flash
  (scpiPrintIpAddress (field (Config.read flash.mem ptr) n),{ s with flash := flash })

def scpiCallbackSystemNetworkAddressQ := queryNetwork crc .address

def scpiCallbackSystemNetworkSubmaskQ := queryNetwork crc .submask

def scpiCallbackSystemNetworkGatewayQ := queryNetwork crc .gateway

def callback : Setting → Except ScpiError (List Char) → NetState → ScpiResult × NetState
  | .address => scpiCallbackSystemNetworkAddress crc
  | .submask => scpiCallbackSystemNetworkSubmask crc
  | .gateway => scpiCallbackSystemNetworkGateway crc

def query : Setting → NetState → List Char × NetState
  | .address => scpiCallbackSystemNetworkAddressQ crc
  | .submask => scpiCallbackSystemNetworkSubmaskQ crc
  | .gateway => scpiCallbackSystemNetworkGatewayQ crc

def written : Setting → Setting
  | .address => .address
  | .submask | .gateway => .submask

variable {crc}

theorem callback_eq (n : Setting) (input : Except ScpiError (List Char)) (s : NetState) :
    callback crc n input s =
      let conf := stored crc s.flash
      let parsed := scpiParamIpAddress input (field conf (written n))
      (.ok,⟨configWrite crc (setField conf parsed.target (written n)) (configGet crc s.flash).2,
        s.errors ++ parsed.errors⟩) := by
  have hread := @configGet_read crc s.flash
  have hset : ∀ m, setNetwork crc m input s =
      (.ok,⟨configWrite crc (setField (stored crc s.flash)
        (scpiParamIpAddress input (field (stored crc s.flash) m)).target m) (configGet crc s.flash).2,
        s.errors ++ (scpiParamIpAddress input (field (stored crc s.flash) m)).errors⟩) := by
    intro m
    have hcode : ∀ r, resultCode r ≠ 0 := by
      intro r
      cases r <;> decide
    simp only [setNetwork,hread,hcode,if_false]
  cases n <;> exact hset _

theorem query_eq (n : Setting) (s : NetState) :
    (query crc n s).1 = scpiPrintIpAddress (field (stored crc s.flash) n) := by
  have hread := @configGet_read crc s.flash
  have hq : ∀ m, (queryNetwork crc m s).1 = scpiPrintIpAddress (field (stored crc s.flash) m) := by
    intro m
    simp only [queryNetwork,hread]
  cases n <;> exact hq _

theorem stored_configWrite (conf : Config) (f : Flash) : stored crc (configWrite crc conf f) = conf := by
  rw [stored,if_pos (configWrite_sealed conf f)]
  exact configWrite_read conf f

theorem stored_callback (n : Setting) (input : Except ScpiError (List Char)) (s : NetState) :
    stored crc (callback crc n input s).2.flash =
      setField (stored crc s.flash)
        (scpiParamIpAddress input (field (stored crc s.flash) (written n))).target (written n) := by
  rw [callback_eq]
  exact stored_configWrite _ _

end

section Rejected
variable (crc : List (BitVec 32) → BitVec 32)

def accepts (input : Except ScpiError (List Char)) : Bool :=
  (scpiParamIpAddress input fun _ => 0).result = .ok

theorem result_eq (input : Except ScpiError (List Char)) (target : Quad) :
    (scpiParamIpAddress input target).result = .ok ↔ accepts input = true := by
  rw [accepts,decide_eq_true_eq]
  cases input with
  | error e => simp [scpiParamIpAddress]
  | ok chars =>
    simp only [scpiParamIpAddress]
    split
    · simp
    · split <;> simp

/-- A parameter that is turned down is answered with an error, and neither the flash
controller nor the stored bytes notice it. -/
def RejectedHarmless (n : Setting) (input : Except ScpiError (List Char)) (s : NetState) : Prop :=
  (scpiParamIpAddress input (field (stored crc s.flash) (written n))).result = .err →
    (callback crc n input s).1 = .err ∧
    (callback crc n input s).2.flash.log = s.flash.log ∧
    stored crc (callback crc n input s).2.flash = stored crc s.flash ∧
    ∀ i, InSector configEeprom i → (callback crc n input s).2.flash.mem i = s.flash.mem i

theorem rejected_harmless_iff (n : Setting) (input : Except ScpiError (List Char)) (s : NetState) :
    RejectedHarmless crc n input s ↔ accepts input = true := by
  rw [← result_eq input (field (stored crc s.flash) (written n))]
  cases hresult : (scpiParamIpAddress input (field (stored crc s.flash) (written n))).result with
  | ok => simp [RejectedHarmless,hresult]
  | err =>
    have hok : (callback crc n input s).1 = .ok := by rw [callback_eq]
    simp [RejectedHarmless,hresult,hok]

def NetState.fresh : NetState := ⟨configWrite crc defaultConfig ⟨fun _ => 0xFF,[]⟩,[]⟩

theorem three_octets_written :
    let crc : List (BitVec 32) → BitVec 32 := fun ws => BitVec.ofNat 32 ws.length
    let input : Except ScpiError (List Char) := .ok "10.0.0".toList
    accepts input = false ∧
      (callback crc .address input (NetState.fresh crc)).1 = .ok ∧
      (stored crc (callback crc .address input (NetState.fresh crc)).2.flash).address = ![10,0,0,50] ∧
      ¬ RejectedHarmless crc .address input (NetState.fresh crc) := by
  intro crc input
  have hreject : accepts input = false := by decide
  have hok : (callback crc .address input (NetState.fresh crc)).1 = .ok := by rw [callback_eq]
  refine ⟨hreject,hok,?_,?_⟩
  · rw [stored_callback,NetState.fresh,stored_configWrite]
    decide
  · intro hharmless
    have hresult : (scpiParamIpAddress input
        (field (stored crc (NetState.fresh crc).flash) (written .address))).result = .err := by
      rw [NetState.fresh,stored_configWrite]
      decide
    have herr := (hharmless hresult).1
    rw [hok] at herr
    cases herr

end Rejected

section Quads

/-- Four numbers up to 255 with dots between them, not longer than the buffer of the
parser takes. -/
structure DottedQuad where
  numerals : List (List Char)
  quad : Quad
  numeral : ∀ d ∈ numerals, Numeral d
  values : numerals.map value = List.ofFn fun i => (quad i).toNat
  short : (joinDots numerals).length ≤ 15

def DottedQuad.text (d : DottedQuad) : List Char := joinDots d.numerals

theorem joinDots_no_nul (ds : List (List Char)) (h : ∀ d ∈ ds, Numeral d) :
    ∀ c ∈ joinDots ds, c.toNat ≠ 0 := by
  intro c hc hz
  obtain rfl | ⟨d,hd,hcd⟩ := mem_joinDots hc
  · exact absurd hz (by decide)
  · have hcode : 48 ≤ c.toNat ∧ c.toNat ≤ 57 := by
      simpa [Char.isDigit,UInt32.le_iff_toNat_le] using (h d hd).digits c hcd
    omega

theorem scanQuad_joinDots {ds : List (List Char)} {q : Quad} (hd : ∀ d ∈ ds, Numeral d)
    (hq : ds.map value = List.ofFn fun i => (q i).toNat) : scanQuad (joinDots ds) = List.ofFn q := by
  have hlen : ds.length = 4 := by simpa using congrArg List.length hq
  have hscan := scanDotted_joinDots ds hd
  rw [hlen] at hscan
  rw [scanQuad,hscan,hq,List.map_ofFn]
  congr 1
  funext i
  simp

theorem overwrite_ofFn (target q : Quad) : overwrite target (List.ofFn q) = q := by
  funext i
  simp only [overwrite,List.getElem?_ofFn,i.isLt,dif_pos,Option.getD_some]

theorem scpiParamIpAddress_dotted (d : DottedQuad) (target : Quad) :
    scpiParamIpAddress (.ok d.text) target = ⟨.ok,[],d.quad⟩ := by
  have hbuf : d.text.takeWhile (fun c => c.toNat ≠ 0) = d.text := by
    apply List.takeWhile_eq_self_iff.mpr
    intro c hc
    simpa using joinDots_no_nul d.numerals d.numeral c hc
  have hlen : ¬ d.text.length > 15 := Nat.not_lt.mpr d.short
  have hscan : scanQuad d.text = List.ofFn d.quad := scanQuad_joinDots d.numeral d.values
  simp only [scpiParamIpAddress,if_neg hlen,hbuf,hscan,overwrite_ofFn,List.length_ofFn,ne_eq,
    not_true_eq_false,if_false]

theorem printed_length (q : Quad) : (scpiPrintIpAddress q).length ≤ 15 := by
  have hdigits : ∀ i, (Nat.toDigits 10 (q i).toNat).length ≤ 3 := by
    intro i
    have hi := (q i).isLt
    exact (Nat.length_toDigits_le_iff (by decide) (by decide)).mpr (by omega)
  have h₀ := hdigits 0
  have h₁ := hdigits (Fin.succ 0)
  have h₂ := hdigits (Fin.succ (Fin.succ 0))
  have h₃ := hdigits (Fin.succ (Fin.succ (Fin.succ 0)))
  simp only [scpiPrintIpAddress,List.ofFn_succ,List.ofFn_zero,joinDots,List.length_append,
    List.length_cons]
  omega

def DottedQuad.printed (q : Quad) : DottedQuad where
  numerals := List.ofFn fun i => Nat.toDigits 10 (q i).toNat
  quad := q
  numeral := by
    intro d hd
    obtain ⟨i,rfl⟩ := List.mem_ofFn.mp hd
    exact numeral_toDigits (by have := (q i).isLt; omega)
  values := by
    rw [List.map_ofFn]
    congr 1
    funext i
    exact Nat.ofDigitChars_toDigits (by decide) (by decide)
  short := printed_length q

theorem scpiPrintIpAddress_injective {q q' : Quad}
    (h : scpiPrintIpAddress q = scpiPrintIpAddress q') : q = q' := by
  have hread : ∀ q, scanQuad (scpiPrintIpAddress q) = List.ofFn q := fun q =>
    scanQuad_joinDots (DottedQuad.printed q).numeral (DottedQuad.printed q).values
  have hsame := hread q'
  rw [← h,hread q] at hsame
  exact List.ofFn_injective hsame

end Quads

section Run
variable (crc : List (BitVec 32) → BitVec 32)

def NetState.step (s : NetState) (c : Setting × DottedQuad) : NetState :=
  (callback crc c.1 (.ok c.2.text) s).2

def lastSet (initial : Quad) (n : Setting) (cs : List (Setting × DottedQuad)) : Quad :=
  (((cs.filter fun c => c.1 = n).getLast?).map fun c => c.2.quad).getD initial

def ReadsBack (s : NetState) (cs : List (Setting × DottedQuad)) : Prop :=
  ∀ n, (query crc n (Runs.run (NetState.step crc) s cs)).1 =
    scpiPrintIpAddress (lastSet (field (stored crc s.flash) n) n cs)

def assign (c : Config) (a : Setting × DottedQuad) : Config := setField c a.2.quad a.1

theorem field_setField (c : Config) (q : Quad) (m n : Setting) :
    field (setField c q m) n = if m = n then q else field c n := by
  cases m <;> cases n <;> rfl

theorem field_ext {c c' : Config} (h : ∀ n, field c n = field c' n) : c = c' := by
  have ha := h .address
  have hs := h .submask
  have hg := h .gateway
  cases c
  cases c'
  simp_all [field]

theorem field_assign (c : Config) (cs : List (Setting × DottedQuad)) (n : Setting) :
    field (Runs.run assign c cs) n = lastSet (field c n) n cs := by
  induction cs using List.reverseRec with
  | nil => rfl
  | append_singleton cs a ih =>
    rw [Runs.run_append]
    simp only [Runs.run,assign,field_setField,ih]
    by_cases ha : a.1 = n
    · simp [lastSet,ha,List.filter_append]
    · simp [lastSet,ha,List.filter_append]

variable {crc}

theorem readsBack_iff (s : NetState) (cs : List (Setting × DottedQuad)) :
    ReadsBack crc s cs ↔
      stored crc (Runs.run (NetState.step crc) s cs).flash = Runs.run assign (stored crc s.flash) cs := by
  simp only [ReadsBack,query_eq,← field_assign]
  constructor
  · intro h
    exact field_ext fun n => scpiPrintIpAddress_injective (h n)
  · intro h n
    rw [h]

theorem stored_step (s : NetState) (c : Setting × DottedQuad) :
    stored crc (s.step crc c).flash = setField (stored crc s.flash) c.2.quad (written c.1) := by
  rw [NetState.step,stored_callback,scpiParamIpAddress_dotted]

/-- GATEway may only repeat what submask and gateway already are. -/
def GatewayIdle (crc : List (BitVec 32) → BitVec 32) (s : NetState) (c : Setting × DottedQuad) : Prop :=
  c.1 = .gateway → (stored crc s.flash).submask = c.2.quad ∧ (stored crc s.flash).gateway = c.2.quad

theorem stored_step_iff (s : NetState) (c : Setting × DottedQuad) :
    stored crc (s.step crc c).flash = assign (stored crc s.flash) c ↔ GatewayIdle crc s c := by
  rw [stored_step]
  obtain ⟨n,d⟩ := c
  cases n with
  | address => simp [assign,written,GatewayIdle]
  | submask => simp [assign,written,GatewayIdle]
  | gateway =>
    simp only [assign,written,GatewayIdle,setField,forall_const]
    generalize stored crc s.flash = c
    cases c
    simp [eq_comm]

end Run

theorem network_settings_kept_iff (crc : List (BitVec 32) → BitVec 32) (s : NetState)
    (cs : List (Setting × DottedQuad)) :
    (∀ pre, pre <+: cs → ReadsBack crc s pre) ↔
      Runs.Along (NetState.step crc) (GatewayIdle crc) s cs := by
  have hview := Runs.follows_iff_along (NetState.step crc) assign (fun s => stored crc s.flash) s cs
  simp only [stored_step_iff] at hview
  simp only [readsBack_iff]
  exact hview

theorem gateway_lands_in_submask :
    let crc : List (BitVec 32) → BitVec 32 := fun ws => BitVec.ofNat 32 ws.length
    let cs : List (Setting × DottedQuad) := [(.gateway,.printed ![192,168,0,1])]
    let s := Runs.run (NetState.step crc) (NetState.fresh crc) cs
    (query crc .gateway s).1 = "172.31.10.1".toList ∧ (query crc .submask s).1 = "192.168.0.1".toList ∧
      ¬ ReadsBack crc (NetState.fresh crc) cs := by
  intro crc cs s
  have hstored : stored crc s.flash = { defaultConfig with submask := ![192,168,0,1] } := by
    simp only [s,cs,Runs.run,stored_step,NetState.fresh,stored_configWrite]
    rfl
  have hgateway : (query crc .gateway s).1 = "172.31.10.1".toList := by
    rw [query_eq,hstored]
    decide
  have hsubmask : (query crc .submask s).1 = "192.168.0.1".toList := by
    rw [query_eq,hstored]
    decide
  refine ⟨hgateway,hsubmask,?_⟩
  intro hback
  have hprinted := hback .gateway
  rw [hgateway] at hprinted
  revert hprinted
  rw [NetState.fresh,stored_configWrite]
  decide

end Stm32Dds.Network

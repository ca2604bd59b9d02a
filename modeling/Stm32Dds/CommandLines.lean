import Stm32Dds.HeaderMatching
import Stm32Dds.ScpiNumbers
import Stm32Dds.SettingsReadback

set_option autoImplicit false

namespace Stm32Dds.Lines
open Bytes Scanning Lexer Numerals Decimals Parameters
open Stm32Dds.Scpi (ScpiNumber WaitNumber Mode RampMode RampTarget ParallelMode Callback Keyword
  Pattern Spelled Spells Action Device Layout Conversions ProgramData MessageUnit Previous
  scpiCommands)
open Stm32Dds.Stream (chars unitHeader)

def waitChoices : List (String × WaitNumber) := [("MINimal",.minimal),("TRIGger",.trigger)]

def modeChoices : List (String × Mode) :=
  [("NORMal",.normal),("PROGram",.program),("EXECute",.execute)]

def rampModeChoices : List (String × RampMode) :=
  [RampMode.single,.sawtoothDown,.sawtoothUp,.oscillating].map fun m => (m.name,m)

def rampTargetChoices : List (String × RampTarget) :=
  [RampTarget.off,.amplitude,.frequency,.phase].map fun t => (t.name,t)

def parallelTargetChoices : List (String × ParallelMode) :=
  [ParallelMode.frequency,.amplitude,.phase,.polar].map fun m => (m.name,m)

/-- What the readers of the callbacks make of the data of a unit. -/
def programDataOf (p : Params) : ProgramData where
  bool := (paramBool true p).value
  number := (paramNumber scpiSpecialNumbersDef .plain true p).value
  wait := (paramNumber waitChoices .plain true p).value
  uint32 := (paramUInt32 true p).value
  mode := (paramChoice modeChoices true p).value
  rampMode := (paramChoice rampModeChoices true p).value
  rampTarget := (paramChoice rampTargetChoices true p).value
  parallelTarget := (paramChoice parallelTargetChoices true p).value

def messageUnits (beyond : List Byte) : List Byte → List Message → List MessageUnit
  | _, [] => []
  | s, m :: ms =>
    ⟨unitHeader m,programDataOf ⟨m.data,0,s.drop (m.dataAt+m.data.length) ++ beyond⟩⟩ ::
      messageUnits beyond (s.drop m.size) ms

/-- SCPI_Parse on the bytes of a packet that has no block in it. Beyond the packet there may be
anything. -/
def parsePacket (lay : Layout) (k : Conversions) (beyond packet : List Byte) (dev : Device) :
    Device :=
  Scpi.scpiParse (fun dev a => a.perform lay k dev) .none
    (messageUnits beyond packet (units packet)) dev

section Headers

def Letters (w : List Byte) : Prop := w ≠ [] ∧ ∀ b ∈ w, isalpha b = true

def lettered (text : List Char) : Bool := text.all fun c => 'a' ≤ c.toLower && c.toLower ≤ 'z'

def path (ws : List (List Byte)) : List Byte := ws.flatMap (chr ':' :: ·)

theorem path_cons (w : List Byte) (ws : List (List Byte)) :
    path (w :: ws) = chr ':' :: (w ++ path ws) := by
  simp [path]

theorem length_le_path (ws : List (List Byte)) : ws.length ≤ (path ws).length := by
  induction ws with
  | nil => rfl
  | cons w ws ih =>
    rw [path_cons,List.length_cons,List.length_cons,List.length_append]
    omega

theorem names_letters {k : Keyword} (hk : lettered k.text = true) {w : List Byte}
    (h : k.Names (chars w)) : Letters w := by
  have hform : ∀ c ∈ (chars w).map Char.toLower, 'a' ≤ c ∧ c ≤ 'z' := by
    simp only [lettered,List.all_eq_true,Bool.and_eq_true,decide_eq_true_eq] at hk
    simp only [Keyword.Names,Keyword.forms,List.mem_cons,List.not_mem_nil,or_false] at h
    rcases h with h | h <;> rw [h] <;> intro c hc <;> obtain ⟨d,hd,rfl⟩ := List.mem_map.mp hc
    · exact hk d hd
    · exact hk d ((List.takeWhile_prefix _).subset hd)
  refine ⟨?_,fun b hb => (letter_class b (hform _ ?_)).1⟩
  · rintro rfl
    exact h.ne_nil rfl
  · exact List.mem_map.mpr ⟨_,List.mem_map.mpr ⟨b,hb,rfl⟩,rfl⟩

theorem spelled_words {row : List Keyword} {words : List Char} (h : Spelled row words)
    (hrow : ∀ k ∈ row, lettered k.text = true) {text : List Byte} (htext : chars text = words) :
    ∃ w ws, text = w ++ path ws ∧ ∀ v ∈ w :: ws, Letters v := by
  induction h generalizing text with
  | one h =>
    subst htext
    exact ⟨text,[],by simp [path],by simpa using names_letters (hrow _ (by simp)) h⟩
  | cons h _ ih =>
    obtain ⟨v,rest,rfl,rfl,hrest⟩ := List.map_eq_append_iff.mp htext
    obtain ⟨c,tail,rfl,hc,htail⟩ := List.map_eq_cons_iff.mp hrest
    obtain ⟨w,ws,rfl,hws⟩ := ih (fun k hk => hrow k (by simp [hk])) htail
    have hcolon : ∀ c : Byte, Char.ofNat c.toNat = ':' → c = chr ':' := by decide
    refine ⟨v,w :: ws,by simp [path,hcolon c hc],?_⟩
    intro u hu
    rcases List.mem_cons.mp hu with rfl | hu
    · exact names_letters (hrow _ (by simp)) h
    · exact hws u hu

theorem mnemonic_letters {w rest : List Byte} (hw : Letters w)
    (hrest : ∀ b ∈ rest.head?, isMnemonic b = false) :
    skipProgramMnemonic (w ++ rest) = w.length := by
  obtain ⟨hne,hletters⟩ := hw
  obtain ⟨b,v,rfl⟩ := List.exists_cons_of_ne_nil hne
  have hmore : ∀ c ∈ v, isMnemonic c = true := fun c hc => by
    simp [isMnemonic,hletters c (by simp [hc])]
  simp only [skipProgramMnemonic,List.cons_append,word,hletters b (by simp),if_true,
    many_until hmore hrest,List.length_cons,Nat.add_comm]

theorem path_head (ws : List (List Byte)) : ∀ b ∈ (path ws).head?, isMnemonic b = false := by
  intro b hb
  cases ws with
  | nil => simp [path] at hb
  | cons w ws =>
    obtain rfl : chr ':' = b := by simpa [path] using hb
    decide

theorem skipPath_path {ws : List (List Byte)} (hws : ∀ w ∈ ws, Letters w) {fuel : Nat}
    (hfuel : ws.length < fuel) (acc : Skip) :
    loop skipPath fuel acc (path ws) = (.ok,(path ws).length) := by
  induction ws generalizing fuel acc with
  | nil =>
    obtain ⟨fuel,rfl⟩ : ∃ f, fuel = f+1 := ⟨fuel-1,by omega⟩
    rfl
  | cons w ws ih =>
    obtain ⟨fuel,rfl⟩ : ∃ f, fuel = f+1 := ⟨fuel-1,by omega⟩
    have hw := hws w (by simp)
    have htext := path_cons w ws
    have hskip := mnemonic_letters hw (path_head ws)
    have hlen : ¬w.length = 0 := fun h => hw.1 (List.length_eq_zero_iff.mp h)
    have hround : skipPath acc (path (w :: ws)) = .again .ok (1+w.length) := by
      rw [htext,skipPath,if_pos (by simp [skipChr,one])]
      simp only [List.drop_succ_cons,List.drop_zero,hskip,hlen,if_false]
    have hdrop : (path (w :: ws)).drop (1+w.length) = path ws := by
      rw [htext,Nat.add_comm,List.drop_succ_cons,List.drop_left]
    rw [loop,hround]
    simp only [hdrop,ih (fun v hv => hws v (by simp [hv])) (show ws.length < fuel by
      rw [List.length_cons] at hfuel; omega)]
    rw [htext,List.length_cons,List.length_append]
    exact Prod.ext rfl (by simp only; omega)

theorem header_path {w : List Byte} {ws : List (List Byte)} (h : ∀ v ∈ w :: ws, Letters v) :
    (scpiLexProgramHeader (path (w :: ws))).2 = (path (w :: ws)).length := by
  have htext := path_cons w ws
  have hw := h w (by simp)
  have hskip := mnemonic_letters hw (path_head ws)
  have hlen : ¬w.length = 0 := fun h => hw.1 (List.length_eq_zero_iff.mp h)
  have hloop := skipPath_path (fun v hv => h v (by simp [hv]))
    (show ws.length < (w ++ path ws).length+1 by
      have hle := length_le_path ws
      rw [List.length_append]
      omega) .ok
  have hcompound : skipCompoundProgramHeader (path (w :: ws)) =
      (.ok,(path (w :: ws)).length) := by
    rw [htext]
    have hcolon : skipChr ':' (chr ':' :: (w ++ path ws)) = 1 := by simp [skipChr,one]
    simp only [skipCompoundProgramHeader,hcolon,List.drop_succ_cons,List.drop_zero,hskip,hlen,
      if_false,List.drop_left,hloop]
    rw [List.length_cons,List.length_append]
    exact Prod.ext rfl (by simp only; omega)
  have hcommon : skipCommonProgramHeader (path (w :: ws)) = (.none,0) := by
    rw [htext]
    rfl
  rw [scpiLexProgramHeader,hcommon]
  simp only [hcompound,withQuery,List.drop_length]
  rfl

def wordy (pattern : String) : Bool :=
  (Pattern.read pattern.toList).any fun p =>
    !p.query && p.rows.all fun row => row.all fun k => lettered k.text

theorem header_spelled {pattern : String} (hpattern : wordy pattern = true) {header : List Byte}
    (h : Spells pattern (chars header)) (hcolon : header.head? = some (chr ':')) :
    (scpiLexProgramHeader header).2 = header.length := by
  obtain ⟨p,hp,words,⟨row,hrow,hspelled⟩,hheader⟩ := h
  simp only [wordy,hp,Option.any_some,Bool.and_eq_true,List.all_eq_true,Bool.not_eq_true'] at hpattern
  obtain ⟨hquery,hrows⟩ := hpattern
  obtain ⟨text,rfl⟩ : ∃ text, header = chr ':' :: text := by
    cases header with
    | nil => cases hcolon
    | cons c text => exact ⟨text,by simpa using hcolon⟩
  have hfirst : (Char.ofNat (chr ':').toNat) = ':' := by decide
  have htext : chars text = words := by
    rw [hquery,chars,List.map_cons,hfirst] at hheader
    simp only [Bool.false_eq_true,if_false,List.append_nil] at hheader
    rcases hheader with heq | ⟨-,heq⟩
    · -- the first word of the row does not start with a colon
      obtain ⟨c,rest,hwords,hc⟩ := hspelled.head
      rw [hwords] at heq
      exact absurd (List.cons.inj heq).1.symm hc
    · exact (List.cons.inj heq).2
  obtain ⟨w,ws,rfl,hws⟩ := spelled_words hspelled (fun k hk => hrows row hrow k hk) htext
  have hwhole := header_path hws
  rwa [path_cons] at hwhole

end Headers

section Units

variable {header gap data : List Byte}

structure OneParameter (data : List Byte) : Prop where
  plain : Plain data
  type : (scpiParserParseProgramData data).type ≠ .unknown
  result : (scpiParserParseProgramData data).result = data.length
  skip : (scpiParserParseProgramData data).skip = data.length
  first : ∀ b ∈ data.head?, isws b = false

theorem parseAll_one (h : OneParameter data) (w : List Byte) :
    scpiParserParseAllProgramData (data ++ newLine :: w) = (⟨true,data.length,1⟩,data.length) := by
  have hsame := (ends_parseProgramData h.plain).same w
  have hcomma : skipChr ',' (newLine :: w) = 0 := rfl
  have hround : nextParameter ⟨true,0,0⟩ (data ++ newLine :: w) =
      .done ⟨true,data.length,1⟩ data.length := by
    simp only [nextParameter,hsame,h.type,if_false,h.result,h.skip,List.drop_left,hcomma]
    simp
  rw [scpiParserParseAllProgramData,loop,hround]

theorem detect_line (hheader : (scpiLexProgramHeader header).2 = header.length)
    (hfirst : ∃ c rest, header = c :: rest ∧ isws c = false) (hgap : ∀ b ∈ gap, isws b = true)
    (hgap' : gap ≠ []) (hdata : OneParameter data) (w : List Byte) :
    scpiParserDetectProgramMessageUnit (header ++ (gap ++ (data ++ newLine :: w))) =
      ⟨false,0,header,header.length+gap.length,data,1,.newLine,
        header.length+gap.length+data.length+1⟩ := by
  have hblanks : skipWs (header ++ (gap ++ (data ++ newLine :: w))) = 0 := by
    obtain ⟨c,rest,rfl,hc⟩ := hfirst
    simp [skipWs,many,hc]
  have hstop : (scpiLexProgramHeader (header ++ (gap ++ (data ++ newLine :: w)))).2 =
      header.length := by
    obtain ⟨c,x,rfl⟩ := List.exists_cons_of_ne_nil hgap'
    have hends := endsHeader_of_isws (hgap c (by simp))
    rw [List.cons_append,(scpiLexProgramHeader_stop hends header _).1,hheader]
  have hws : skipWs (gap ++ (data ++ newLine :: w)) = gap.length := by
    refine skipWs_front hgap fun b hb => ?_
    cases hd : data with
    | nil =>
      obtain rfl : newLine = b := by simpa [hd] using hb
      decide
    | cons c rest =>
      obtain rfl : c = b := by simpa [hd] using hb
      exact hdata.first c (by simp [hd])
  have hpos : 0 < gap.length := List.length_pos_iff.mpr hgap'
  have hparts : messageParts (header ++ (gap ++ (data ++ newLine :: w))) =
      ⟨0,header.length,gap.length,⟨true,data.length,1⟩,data.length⟩ := by
    simp only [messageParts,hblanks,List.drop_zero,hstop,List.drop_left,hws,parameters,if_pos hpos,
      parseAll_one hdata]
  have hafter : (header ++ (gap ++ (data ++ newLine :: w))).drop (header.length+gap.length) =
      data ++ newLine :: w := by
    rw [← List.drop_drop,List.drop_left,List.drop_left]
  have hrest : (header ++ (gap ++ (data ++ newLine :: w))).drop
      (header.length+gap.length+data.length) = newLine :: w := by
    rw [← List.drop_drop,hafter,List.drop_left]
  have hplace : (⟨0,header.length,gap.length,⟨true,data.length,1⟩,data.length⟩ : Parts).pos =
      header.length+gap.length+data.length := by
    simp [Parts.pos,Parts.dataAt]
  have hnewLine : terminator (newLine :: w) = 1 ∧ scpiLexNewLine (newLine :: w) = 1 := ⟨rfl,rfl⟩
  rw [scpiParserDetectProgramMessageUnit]
  simp only [hparts,hplace,hrest,hnewLine,Parts.dataAt,Nat.zero_add,hafter,List.take_left,
    List.drop_zero]
  rfl

end Units

structure Line where
  entry : String × (ProgramData → Action)
  header : List Byte
  gap : List Byte
  data : List Byte
  known : entry ∈ scpiCommands
  wordy : wordy entry.1 = true
  spelled : Spells entry.1 (chars header)
  absolute : header.head? = some (chr ':')
  gap_blank : ∀ b ∈ gap, isws b = true
  gap_ne : gap ≠ []
  one : OneParameter data

namespace Line
variable (l : Line)

def text : List Byte := l.header ++ (l.gap ++ (l.data ++ [newLine]))

def unit : Message :=
  ⟨false,0,l.header,l.header.length+l.gap.length,l.data,1,.newLine,
    l.header.length+l.gap.length+l.data.length+1⟩

/-- What the callback of the line gets to read in front of other text. -/
def params (w : List Byte) : Params := ⟨l.data,0,newLine :: w⟩

theorem header_eq : ∃ rest, l.header = chr ':' :: rest := by
  have habsolute := l.absolute
  cases h : l.header with
  | nil => simp [h] at habsolute
  | cons c rest =>
    obtain rfl : c = chr ':' := by simpa [h] using habsolute
    exact ⟨rest,rfl⟩

theorem size_unit : l.text.length = l.unit.size := by
  simp only [text,unit,List.length_append,List.length_cons,List.length_nil]
  omega

theorem units_text (w : List Byte) : units (l.text ++ w) = l.unit :: units w := by
  obtain ⟨rest,hheader⟩ := l.header_eq
  have htext : l.text ++ w = l.header ++ (l.gap ++ (l.data ++ newLine :: w)) := by
    simp [text]
  have hdetect := detect_line (header_spelled l.wordy l.spelled l.absolute)
    ⟨chr ':',rest,hheader,by decide⟩ l.gap_blank l.gap_ne l.one w
  rw [units_of_ne (by simp [text]),htext,hdetect,← htext]
  exact congrArg (l.unit :: ·) (congrArg units (List.drop_left' l.size_unit))

theorem messageUnits_text (beyond w : List Byte) (ms : List Message) :
    messageUnits beyond (l.text ++ w) (l.unit :: ms) =
      ⟨unitHeader l.unit,programDataOf (l.params (w ++ beyond))⟩ :: messageUnits beyond w ms := by
  have hbehind : (l.text ++ w).drop (l.unit.dataAt+l.unit.data.length) = newLine :: w := by
    have htext : l.text ++ w = (l.header ++ (l.gap ++ l.data)) ++ (newLine :: w) := by
      simp [text]
    rw [htext]
    exact List.drop_left' (by simp only [unit,List.length_append]; omega)
  rw [messageUnits,hbehind,List.drop_left' l.size_unit]
  rfl

end Line

theorem units_lines (lines : List Line) : units (lines.flatMap Line.text) = lines.map Line.unit := by
  induction lines with
  | nil => rfl
  | cons l lines ih => rw [List.flatMap_cons,l.units_text,ih,List.map_cons]

theorem findCommandHeader_spelled {e : String × (ProgramData → Action)} (he : e ∈ scpiCommands)
    {header : List Char} (h : Spells e.1 header) : Scpi.findCommandHeader header = some e.2 := by
  obtain ⟨i,hi⟩ := List.mem_iff_getElem?.mp he
  obtain ⟨hlt,hget⟩ := List.getElem?_eq_some_iff.mp hi
  have hfind : scpiCommands.find? (fun e => Scpi.matchCommand e.1.toList header) = some e := by
    rw [List.find?_eq_some_iff_getElem]
    refine ⟨(Scpi.entry_matches he header).mpr h,i,hlt,hget,fun j hj => ?_⟩
    have hj' : j < scpiCommands.length := hj.trans hlt
    cases hmatch : Scpi.matchCommand (scpiCommands[j]).1.toList header with
    | false => rfl
    | true =>
      have hfirst := (Scpi.entry_matches (List.getElem_mem hj') header).mp hmatch
      exact absurd h (Scpi.entries_apart hj (List.getElem?_eq_getElem hj') hi hfirst)
  rw [Scpi.findCommandHeader,hfind,Option.map_some]

def linesActions (beyond : List Byte) : List Line → List Action
  | [] => []
  | l :: lines =>
    l.entry.2 (programDataOf (l.params (lines.flatMap Line.text ++ beyond))) ::
      linesActions beyond lines

theorem actionsOf_lines (beyond : List Byte) (prev : Previous) (lines : List Line) :
    Scpi.actionsOf prev (messageUnits beyond (lines.flatMap Line.text) (lines.map Line.unit)) =
      linesActions beyond lines := by
  induction lines generalizing prev with
  | nil => rfl
  | cons l lines ih =>
    obtain ⟨rest,hheader⟩ := l.header_eq
    have hcolon : (chars l.header).head? = some ':' := by
      rw [hheader]
      rfl
    have hcompose : Scpi.composeCompoundCommand prev.header (chars l.header) = chars l.header := by
      rw [Scpi.composeCompoundCommand,if_pos (.inr (.inr (.inl hcolon)))]
    have hne : chars l.header ≠ [] := by simp [hheader,chars]
    have hfound := findCommandHeader_spelled l.known l.spelled
    have hstep (d : ProgramData) (us : List MessageUnit) :
        Scpi.actionsOf prev (⟨unitHeader l.unit,d⟩ :: us) =
          l.entry.2 d :: Scpi.actionsOf (prev.behind (unitHeader l.unit)) us := by
      simp only [Scpi.actionsOf,unitHeader,Line.unit,hcompose,hfound,hne,Bool.false_eq_true,if_false]
    rw [List.flatMap_cons,List.map_cons,l.messageUnits_text,hstep,ih,linesActions]

theorem lines_performed (lay : Layout) (k : Conversions) (beyond : List Byte) (lines : List Line)
    (dev : Device) :
    parsePacket lay k beyond (lines.flatMap Line.text) dev =
      (linesActions beyond lines).foldl (fun dev a => a.perform lay k dev) dev := by
  rw [parsePacket,Scpi.scpiParse_eq,units_lines,actionsOf_lines]

section Plain

theorem plain_append {x y : List Byte} (hx : Plain x) (hy : Plain y) : Plain (x ++ y) := by
  intro b hb
  rcases List.mem_append.mp hb with h | h
  · exact hx b h
  · exact hy b h

theorem plain_of {p : Byte → Bool}
    (hp : ∀ b, p b = true → b ≠ doubleQuote ∧ b ≠ singleQuote ∧ b ≠ chr '#') {x : List Byte}
    (hx : ∀ b ∈ x, p b = true) : Plain x :=
  fun b hb => hp b (hx b hb)

theorem plain_digits {x : List Byte} (hx : ∀ b ∈ x, isDigit 10 b = true) : Plain x :=
  plain_of (by decide) hx

theorem plain_blanks {x : List Byte} (hx : ∀ b ∈ x, isws b = true) : Plain x :=
  plain_of (by decide) hx

theorem plain_sign {x : List Byte} (hx : x ∈ signTexts) : Plain x := by
  simp only [signTexts,List.mem_cons,List.not_mem_nil,or_false] at hx
  rcases hx with rfl | rfl | rfl <;> simp [Plain] <;> decide

theorem plain_number (n : Number) : Plain n.text := by
  have hpoint : Plain n.mantissa.pointText := by
    unfold Mantissa.pointText
    split
    · simp [Plain]
      decide
    · simp [Plain]
  have hmantissa : Plain n.mantissa.text :=
    plain_append (plain_sign n.mantissa.sign_text)
      (plain_append (plain_digits fun b hb => n.mantissa.digits b (by simp [hb]))
        (plain_append hpoint (plain_digits fun b hb => n.mantissa.digits b (by simp [hb]))))
  cases hp : n.power with
  | none =>
    rw [Number.text,hp]
    simpa using hmantissa
  | some p =>
    have hclass : ∀ b, isLetterE b = true → b ≠ doubleQuote ∧ b ≠ singleQuote ∧ b ≠ chr '#' := by
      decide
    have hletter : Plain [p.exponent.letter] :=
      plain_of hclass (by simpa using p.exponent.letter_e)
    have hpower : Plain p.text :=
      plain_append (plain_blanks fun b hb => p.blank b (by simp [hb])) (plain_append hletter
        (plain_append (plain_blanks fun b hb => p.blank b (by simp [hb]))
          (plain_append (plain_sign p.exponent.sign_text) (plain_digits p.exponent.digits))))
    rw [Number.text,hp]
    exact plain_append hmantissa hpower

end Plain

inductive NumberSetting
  | outputAmplitude | outputFrequency | parallelFrequency | rampBoundaryMaximum
  | rampBoundaryMinimum | rampRateDown | rampRateUp | rampStepDown | rampStepUp | sequenceNcycles
  deriving DecidableEq, Repr

namespace NumberSetting

def pattern : NumberSetting → String
  | .outputAmplitude => "OUTput:AMPLitude"
  | .outputFrequency => "OUTput:FREQuency"
  | .parallelFrequency => "PARallel:FREQuency"
  | .rampBoundaryMaximum => "RAMP:BOUNDary:MAXimum"
  | .rampBoundaryMinimum => "RAMP:BOUNDary:MINimum"
  | .rampRateDown => "RAMP:RATE:DOWN"
  | .rampRateUp => "RAMP:RATE:UP"
  | .rampStepDown => "RAMP:STEP:DOWN"
  | .rampStepUp => "RAMP:STEP:UP"
  | .sequenceNcycles => "SEQuence:NCYCles"

def command (value : Option ScpiNumber) : NumberSetting → Scpi.SetCommand
  | .outputAmplitude => .callback (.outputAmplitude value)
  | .outputFrequency => .callback (.outputFrequency value)
  | .parallelFrequency => .callback (.parallelFrequency value)
  | .rampBoundaryMaximum => .callback (.rampBoundaryMaximum value)
  | .rampBoundaryMinimum => .callback (.rampBoundaryMinimum value)
  | .rampRateDown => .callback (.rampRateDown value)
  | .rampRateUp => .callback (.rampRateUp value)
  | .rampStepDown => .callback (.rampStepDown value)
  | .rampStepUp => .callback (.rampStepUp value)
  | .sequenceNcycles => .sequenceNcycles value

def entry (s : NumberSetting) : String × (ProgramData → Action) :=
  (s.pattern,fun d => .set (s.command d.number))

theorem entry_known (s : NumberSetting) : s.entry ∈ scpiCommands := by
  have hboth : s.entry ∈ Scpi.patternsBoth := by
    cases s <;> simp [entry,pattern,command,Scpi.patternsBoth]
  simp only [scpiCommands,List.mem_append]
  exact .inl (.inl (.inl (.inr hboth)))

theorem wordy_pattern (s : NumberSetting) : wordy s.pattern = true := by
  cases s <;> decide +kernel

end NumberSetting

/-- A setting as a client writes it: its header from the root on, blanks, a number, and a unit
with blanks in front of it. -/
structure WrittenSetting where
  setting : NumberSetting
  header : List Byte
  gap : List Byte
  number : Number
  unit : Option (List Byte × Suffix)
  spelled : Spells setting.pattern (chars header)
  absolute : header.head? = some (chr ':')
  gap_blank : ∀ b ∈ gap, isws b = true
  gap_ne : gap ≠ []
  unit_blank : ∀ u ∈ unit, ∀ b ∈ u.1, isws b = true

namespace WrittenSetting
variable (s : WrittenSetting)

def data : List Byte := s.number.text ++ (s.unit.map fun u => u.1 ++ u.2.letters).getD []

def text : List Byte := s.header ++ (s.gap ++ (s.data ++ [newLine]))

def value : ScpiNumber :=
  let suffix := s.unit.map Prod.snd
  .plain (s.number.read*suffixMult suffix) (suffixUnit suffix)

theorem number_data {behind : List Byte} (hbehind : Closed behind) :
    (programDataOf ⟨s.data,0,behind⟩).number = some s.value := by
  have hnone : ∀ b ∈ ([] : List Byte), isws b = true := by simp
  have hunit := s.unit_blank
  cases hu : s.unit with
  | none =>
    have hread := paramNumber_read scpiSpecialNumbersDef .plain true s.number none hnone hnone hnone
      hbehind
    simp only [suffixText,Option.map_none,Option.getD_none,List.append_nil,List.nil_append] at hread
    simp only [programDataOf,data,value,hu,Option.map_none,Option.getD_none,List.append_nil,hread]
  | some u =>
    have hread := paramNumber_read scpiSpecialNumbersDef .plain true s.number (some u.2) hnone
      (hunit u hu) hnone hbehind
    simp only [suffixText,Option.map_some,Option.getD_some,List.append_nil,List.nil_append] at hread
    simp only [programDataOf,data,value,hu,Option.map_some,Option.getD_some,hread]

theorem one_data : OneParameter s.data := by
  have hnone : ∀ b ∈ ([] : List Byte), isws b = true := by simp
  have hunit := s.unit_blank
  have hhead := (number_head s.number ((s.unit.map fun u => u.1 ++ u.2.letters).getD [])).2
  have hfirst : ∀ b ∈ s.data.head?, isws b = false := fun b hb => (hhead b hb).1
  have hfront : skipWs s.data = 0 := skipWs_front hnone hfirst
  obtain ⟨type,htype,hlex⟩ : ∃ type, type ≠ .unknown ∧
      programData s.data = ⟨type,s.data.length,s.data.length,s.data.length⟩ := by
    have hnot := number_length s.number
    cases hu : s.unit with
    | none =>
      have hplain := programData_plain s.number hnone
      simp only [List.append_nil,List.length_nil,Nat.add_zero] at hplain
      refine ⟨.decimalNumericProgramData,by decide,?_⟩
      simp only [data,hu,Option.map_none,Option.getD_none,List.append_nil,hplain]
    | some u =>
      have hsuffix := programData_suffix s.number u.2 (hunit u hu) hnone
      rw [Lexed.whole,if_neg (by simp only [List.length_append]; omega),List.append_nil] at hsuffix
      refine ⟨.decimalNumericProgramDataWithSuffix,by decide,?_⟩
      simp only [data,hu,Option.map_some,Option.getD_some,hsuffix]
  have hparse : scpiParserParseProgramData s.data =
      ⟨type,s.data.length,s.data.length,s.data.length⟩ := by
    have hend : skipWs [] = 0 := rfl
    simp only [scpiParserParseProgramData,hfront,List.drop_zero,hlex,List.drop_length,hend,
      Nat.add_zero,Nat.zero_add]
  have hplain : Plain s.data := by
    refine plain_append (plain_number s.number) ?_
    cases hu : s.unit with
    | none => simp [Plain]
    | some u =>
      have hletters : Plain u.2.letters := plain_of (by decide) u.2.spelled.2.1
      exact plain_append (plain_blanks (hunit u hu)) hletters
  exact ⟨hplain,by rw [hparse]; exact htype,by rw [hparse],by rw [hparse],hfirst⟩

def line : Line :=
  ⟨s.setting.entry,s.header,s.gap,s.data,s.setting.entry_known,s.setting.wordy_pattern,s.spelled,
    s.absolute,s.gap_blank,s.gap_ne,s.one_data⟩

end WrittenSetting

theorem linesActions_settings (beyond : List Byte) (settings : List WrittenSetting) :
    linesActions beyond (settings.map WrittenSetting.line) =
      settings.map fun s => .set (s.setting.command (some s.value)) := by
  induction settings with
  | nil => rfl
  | cons s settings ih =>
    have hnumber := s.number_data
      (closed_newLine ((settings.map WrittenSetting.line).flatMap Line.text ++ beyond))
    rw [List.map_cons,linesActions,ih,List.map_cons]
    simp only [WrittenSetting.line,NumberSetting.entry,Line.params] at hnumber ⊢
    rw [hnumber]

example : ∃ s : WrittenSetting, s.text = text ":out:freq 1.5 kHz\n" ∧
    s.value = .plain 1500 .hertz := by
  have hspelled : Spells "OUTput:FREQuency" (chars (text ":out:freq")) :=
    (Scpi.entry_matches (NumberSetting.entry_known .outputFrequency) _).mp (by decide +kernel)
  have hdigits : Numerals.value 10 (text "1" ++ text "5") = 15 ∧ (text "5").length = 1 := by decide
  have hblank : ∀ u, some (text " ",(⟨text "kHz",⟨"KHZ",.hertz,10^3⟩,rfl⟩ : Suffix)) = some u →
      ∀ b ∈ u.1, isws b = true := by
    rintro u ⟨⟩
    decide
  refine ⟨⟨.outputFrequency,text ":out:freq",text " ",
    ⟨⟨[],text "1",true,text "5",by decide,by decide,by decide,by decide⟩,none⟩,
    some (text " ",⟨text "kHz",⟨"KHZ",.hertz,10^3⟩,rfl⟩),hspelled,rfl,by decide,by decide,
    hblank⟩,rfl,?_⟩
  norm_num [WrittenSetting.value,Number.read,Number.tight,Number.meant,Mantissa.value,suffixMult,
    suffixUnit,hdigits]

end Stm32Dds.Lines

import BTRx.Base.Memory
import BTRx.Base.Text
import BTRx.ObjStore.Cache

/-! # Reading `Common.cfg`

Each line is copied to a buffer of 512 bytes and cut at its blanks. The last token of a
line keeps the newline. `strtol` stops in front of it, so the integers are right, but the
name of the shared file takes it along.
-/
namespace BTRx
open Memory Text

/-- A token that the program goes on with whether or not there is one. -/
def token (s : List UInt8) : Except Fault (List UInt8 × List UInt8) :=
  match strtok 32 s with
  | none => .error .nullPointer
  | some t => .ok t

/-- `"FileName"`. -/
def fileName : List UInt8 := [70,105,108,101,78,97,109,101]

/-- `tmp` after `strncpy`, as the string functions see it; `junk` follows it in memory. -/
def tmpString (junk line : List UInt8) : List UInt8 :=
  cString (strncpy 512 (line.map some ++ [some 0])) junk

/-- The body of the loop of `read_conf_file`, on `sh_fname` and `vals`. -/
def confLine (junk peerid : List UInt8) (conf : List UInt8 × List ℤ) (line : List UInt8) :
    Except Fault (List UInt8 × List ℤ) := do
  let (field,rest) ← token (tmpString junk line)
  if field = fileName then
    let (value,_) ← token rest
    return (peerid ++ [47] ++ value,conf.2)
  else
    let (value,_) ← token rest
    return (conf.1,conf.2 ++ [toInt (strtol value)])

/-- `read_conf_file(fname, peerid, sh_fname, vals)`, on the file that `fopen` finds. -/
def readConfFile (file : Option (List UInt8)) (junk peerid shFname : List UInt8) (vals : List ℤ) :
    Except Fault (List UInt8 × List ℤ) :=
  match file with
  | none => .error .exit
  | some text => (lines 10 text).foldlM (confLine junk peerid) (shFname,vals)

/-! ## Files of lines with a key and a value -/

/-- A line with a 32-bit integer. -/
structure Setting where
  key : List UInt8
  value : List UInt8
  number : ℤ
  word : key ≠ [] ∧ 32 ∉ key ∧ 10 ∉ key
  other : key ≠ fileName
  numeral : Numeral value number
  range : -2 ^ 31 ≤ number ∧ number < 2 ^ 31
  short : (key ++ 32 :: value).length < 512

/-- The line without its newline. -/
def Setting.line (s : Setting) : List UInt8 := s.key ++ 32 :: s.value

/-- A configuration with one `FileName` line. -/
structure Common where
  before : List Setting
  name : List UInt8
  after : List Setting
  word : 32 ∉ name ∧ 10 ∉ name
  short : (fileName ++ 32 :: name).length < 512

namespace Common

def rows (c : Common) : List (List UInt8) :=
  c.before.map Setting.line ++ (fileName ++ 32 :: c.name) :: c.after.map Setting.line

def text (c : Common) : List UInt8 := c.rows.flatMap fun row => row ++ [10]

/-- The integers in the order of the file. -/
def numbers (c : Common) : List ℤ := (c.before ++ c.after).map Setting.number

end Common

/-! ## One line -/

variable {junk peerid s rest : List UInt8} {conf conf' : List UInt8 × List ℤ}

theorem token_eq_ok {t : List UInt8 × List UInt8} : token s = .ok t ↔ strtok 32 s = some t := by
  unfold token
  cases strtok 32 s <;> simp

theorem toInt_eq_self {x : ℤ} (hlo : -2 ^ 31 ≤ x) (hhi : x < 2 ^ 31) : toInt x = x := by
  unfold toInt
  rw [Int.bmod_def]
  split <;> omega

theorem tmpString_append (hs : 0 ∉ s) (hlen : s.length ≤ 512) :
    tmpString junk (s ++ rest) =
      s ++ cString (strncpy (512 - s.length) (rest.map some ++ [some 0])) junk := by
  rw [tmpString,List.map_append,List.append_assoc,cString_strncpy_append hs hlen]

/-- A key without a zero byte is the first token. -/
theorem token_key {key : List UInt8} (hw : key ≠ [] ∧ 32 ∉ key) (h0 : 0 ∉ key)
    (hlen : key.length < 512) : token (tmpString junk (key ++ 32 :: rest)) =
      .ok (key,cString (strncpy (511 - key.length) (rest.map some ++ [some 0])) junk) := by
  have hsplit : key ++ 32 :: rest = (key ++ [32]) ++ rest := by simp
  have hzero : (0 : UInt8) ∉ key ++ [32] := by simpa using h0
  have hsub : 512 - (key ++ [32]).length = 511 - key.length := by simp
  rw [token_eq_ok,hsplit,tmpString_append hzero (by simp; omega),hsub,List.append_assoc,
    List.singleton_append,strtok_word hw.1 hw.2]

/-- The line after its first token. -/
theorem confLine_of_token {line field : List UInt8} (h : token (tmpString junk line) = .ok (field,rest)) :
    confLine junk peerid conf line = do
      let (value,_) ← token rest
      return if field = fileName then (peerid ++ [47] ++ value,conf.2)
        else (conf.1,conf.2 ++ [toInt (strtol value)]) := by
  rw [confLine,h]
  by_cases hf : field = fileName
  · simp only [Outcome.ok_bind,if_pos hf]
  · simp only [Outcome.ok_bind,if_neg hf]

/-- A key with a zero byte ends the string, and there is no second token. -/
theorem confLine_of_zero {key : List UInt8} (hw : 32 ∉ key) (h0 : 0 ∈ key) (hlen : key.length < 512) :
    confLine junk peerid conf (key ++ 32 :: rest) = .error .nullPointer := by
  obtain ⟨k,k',rfl,hk⟩ := List.eq_append_cons_of_mem h0
  have hkw : 32 ∉ k := fun h => hw (List.mem_append_left _ h)
  rw [List.length_append,List.length_cons] at hlen
  have htmp : tmpString junk ((k ++ 0 :: k') ++ 32 :: rest) = k := by
    have hz := cString_strncpy_zero (n := 512 - k.length) (by omega)
      ((k' ++ 32 :: rest).map some ++ [some 0]) junk
    rw [List.append_assoc,tmpString_append hk (by omega)]
    simp only [List.cons_append,List.map_cons]
    rw [hz,List.append_nil]
  by_cases hnil : k = []
  · subst hnil
    rw [confLine,htmp]
    rfl
  · rw [confLine_of_token (htmp.symm ▸ token_eq_ok.mpr (strtok_last hnil hkw))]
    rfl

/-- What the `FileName` line makes of the name is never the name itself. -/
theorem confLine_fileName {name : List UInt8} (hw : 32 ∉ name)
    (hlen : (fileName ++ 32 :: name).length < 512)
    (h : confLine junk peerid conf ((fileName ++ 32 :: name) ++ [10]) = .ok conf') :
    ∃ t, t ≠ name ∧ conf'.1 = peerid ++ [47] ++ t := by
  have hline : (fileName ++ 32 :: name) ++ [10] = fileName ++ 32 :: (name ++ [10]) := by simp
  rw [hline,confLine_of_token (token_key ⟨by decide,by decide⟩ (by decide) (by decide))] at h
  obtain ⟨⟨t,_⟩,ht,h⟩ := Outcome.bind_eq_ok.mp h
  cases h
  rw [token_eq_ok] at ht
  refine ⟨t,?_,rfl⟩
  rintro rfl
  by_cases h0 : 0 ∈ t
  · exact zero_not_mem_cString _ _ (subset_of_strtok ht h0)
  · have hfit : (t ++ [10]).length ≤ 511 - fileName.length := by
      simp [fileName] at hlen ⊢
      omega
    have hzero : (0 : UInt8) ∉ t ++ [10] := by simpa using h0
    have hblank : (32 : UInt8) ∉ t ++ [10] := by simpa using hw
    rw [cString_strncpy_append hzero hfit,strtok_append (by simp) hblank] at ht
    -- the newline belongs to the token
    have hlen := congrArg List.length (Prod.mk.inj (Option.some.inj ht)).1
    simp at hlen

/-- Any other line leaves the name alone. -/
theorem confLine_setting {s : Setting} (h : confLine junk peerid conf (s.line ++ [10]) = .ok conf') :
    conf'.1 = conf.1 := by
  have hshort := s.short
  rw [List.length_append,List.length_cons] at hshort
  have hline : s.line ++ [10] = s.key ++ 32 :: (s.value ++ [10]) := by simp [Setting.line]
  rw [hline] at h
  by_cases h0 : 0 ∈ s.key
  · rw [confLine_of_zero s.word.2.1 h0 (by omega)] at h
    cases h
  · rw [confLine_of_token (token_key ⟨s.word.1,s.word.2.1⟩ h0 (by omega))] at h
    obtain ⟨⟨_,_⟩,_,h⟩ := Outcome.bind_eq_ok.mp h
    simp only [if_neg s.other] at h
    cases h
    rfl

/-- The last token of a line that fits keeps the newline. -/
theorem token_value {value : List UInt8} {n : ℕ} (hw : 32 ∉ value) (h0 : 0 ∉ value)
    (hn : value.length + 1 < n) :
    token (cString (strncpy n ((value ++ [10]).map some ++ [some 0])) junk) =
      .ok (value ++ [10],[]) := by
  have hzero : (0 : UInt8) ∉ value ++ [10] := by simpa using h0
  have hblank : (32 : UInt8) ∉ value ++ [10] := by simpa using hw
  have hlen : (value ++ [10]).length = value.length + 1 := List.length_append
  rw [token_eq_ok,cString_strncpy_append hzero (by omega),cString_strncpy_zero (by omega),
    List.append_nil,strtok_last (by simp) hblank]

theorem confLine_setting_eq {s : Setting} (h0 : 0 ∉ s.key) (hfit : s.line.length + 1 < 512) :
    confLine junk peerid conf (s.line ++ [10]) = .ok (conf.1,conf.2 ++ [s.number]) := by
  have hlen : s.line.length = s.key.length + (s.value.length + 1) := by simp [Setting.line]
  have hline : s.line ++ [10] = s.key ++ 32 :: (s.value ++ [10]) := by simp [Setting.line]
  have hvalue := @token_value junk _ (511 - s.key.length) (s.numeral.not_mem (c := 32) (by decide))
    (s.numeral.not_mem (c := 0) (by decide)) (by omega)
  obtain ⟨hlo,hhi⟩ := s.range
  have hnum : strtol (s.value ++ [10]) = s.number :=
    strtol_numeral s.numeral (by omega) (by omega) (by simp [isDigit])
  rw [hline,confLine_of_token (token_key ⟨s.word.1,s.word.2.1⟩ h0 (by omega)),hvalue]
  simp only [Outcome.ok_bind,if_neg s.other,hnum,toInt_eq_self hlo hhi]
  rfl

theorem confLine_fileName_eq {name : List UInt8} (hw : 32 ∉ name) (h0 : 0 ∉ name)
    (hfit : (fileName ++ 32 :: name).length + 1 < 512) :
    confLine junk peerid conf ((fileName ++ 32 :: name) ++ [10]) =
      .ok (peerid ++ [47] ++ (name ++ [10]),conf.2) := by
  have hline : (fileName ++ 32 :: name) ++ [10] = fileName ++ 32 :: (name ++ [10]) := by simp
  have hn : name.length + 1 < 511 - fileName.length := by
    simp [fileName] at hfit ⊢
    omega
  rw [hline,confLine_of_token (token_key ⟨by decide,by decide⟩ (by decide) (by decide)),
    token_value hw h0 hn]
  rfl

/-! ## The whole file -/

theorem Setting.newline_notMem (s : Setting) : 10 ∉ s.line := by
  have hv := s.numeral.not_mem (c := 10) (by decide)
  simp [Setting.line,s.word.2.2,hv]

namespace Common

theorem lines_text (c : Common) : lines 10 c.text = c.rows.map fun row => row ++ [10] := by
  have hrows : ∀ row ∈ c.rows, 10 ∉ id row := by
    intro row hrow
    rcases List.mem_append.mp hrow with hrow | hrow
    · obtain ⟨s,_,rfl⟩ := List.mem_map.mp hrow
      exact s.newline_notMem
    · rcases List.mem_cons.mp hrow with rfl | hrow
      · simp [fileName,c.word.2]
      · obtain ⟨s,_,rfl⟩ := List.mem_map.mp hrow
        exact s.newline_notMem
  exact lines_flatMap hrows

theorem foldlM_settings {ss : List Setting}
    (h : (ss.map fun s => s.line ++ [10]).foldlM (confLine junk peerid) conf = .ok conf') :
    conf'.1 = conf.1 := by
  refine Outcome.foldlM_preserves (P := fun x => x.1 = conf.1) (fun line hline a b hab ha => ?_) h rfl
  obtain ⟨s,_,rfl⟩ := List.mem_map.mp hline
  exact (confLine_setting hab).trans ha

theorem foldlM_settings_eq {ss : List Setting}
    (h : ∀ s ∈ ss, 0 ∉ s.key ∧ s.line.length + 1 < 512) :
    (ss.map fun s => s.line ++ [10]).foldlM (confLine junk peerid) conf =
      .ok (conf.1,conf.2 ++ ss.map Setting.number) := by
  induction ss generalizing conf with
  | nil => simp
  | cons s ss ih =>
    obtain ⟨⟨h0,hfit⟩,hss⟩ := List.forall_mem_cons.mp h
    rw [List.map_cons,List.foldlM_cons,confLine_setting_eq h0 hfit,Outcome.ok_bind,ih hss]
    simp

/-- The loop, split at the `FileName` line. -/
theorem readConfFile_text (c : Common) (junk peerid shFname : List UInt8) (vals : List ℤ) :
    readConfFile (some c.text) junk peerid shFname vals = (do
      let conf ← (c.before.map fun s => s.line ++ [10]).foldlM (confLine junk peerid) (shFname,vals)
      let conf ← confLine junk peerid conf ((fileName ++ 32 :: c.name) ++ [10])
      (c.after.map fun s => s.line ++ [10]).foldlM (confLine junk peerid) conf) := by
  simp only [readConfFile,lines_text,rows,List.map_append,List.map_map,List.map_cons,
    List.foldlM_append,List.foldlM_cons]
  rfl

/-- Without zero bytes, and with room for the newline, the integers are right and the name
ends with the newline. -/
theorem readConfFile_eq (c : Common) (hname : 0 ∉ c.name)
    (hfit : (fileName ++ 32 :: c.name).length + 1 < 512)
    (h : ∀ s ∈ c.before ++ c.after, 0 ∉ s.key ∧ s.line.length + 1 < 512)
    (junk peerid shFname : List UInt8) (vals : List ℤ) :
    readConfFile (some c.text) junk peerid shFname vals =
      .ok (peerid ++ [47] ++ (c.name ++ [10]),vals ++ c.numbers) := by
  obtain ⟨hbefore,hafter⟩ := List.forall_mem_append.mp h
  rw [readConfFile_text,foldlM_settings_eq hbefore,Outcome.ok_bind,
    confLine_fileName_eq c.word.1 hname hfit,Outcome.ok_bind,foldlM_settings_eq hafter]
  simp [numbers]

/-- No file gives the name that stands in it. -/
theorem readConfFile_ne (c : Common) (junk peerid shFname : List UInt8) (vals : List ℤ) :
    readConfFile (some c.text) junk peerid shFname vals ≠
      .ok (peerid ++ [47] ++ c.name,vals ++ c.numbers) := by
  intro h
  rw [readConfFile_text] at h
  obtain ⟨a,_,h⟩ := Outcome.bind_eq_ok.mp h
  obtain ⟨b,hb,h⟩ := Outcome.bind_eq_ok.mp h
  obtain ⟨t,ht,hsh⟩ := confLine_fileName c.word.1 c.short hb
  have hend := foldlM_settings h
  exact ht (List.append_cancel_left (hsh.symm.trans hend.symm))

/-- A file with the lines `K 5` and `FileName a`. -/
theorem readConfFile_newline : ∃ c : Common, c.name = [97] ∧ c.numbers = [5] ∧
    readConfFile (some c.text) [] [49] [] [] = .ok ([49,47,97,10],[5]) ∧
    readConfFile (some c.text) [] [49] [] [] ≠ .ok ([49] ++ [47] ++ c.name,[] ++ c.numbers) := by
  obtain ⟨s,hkey,hvalue,hnum⟩ : ∃ s : Setting, s.key = [75] ∧ s.value = [53] ∧ s.number = 5 :=
    ⟨⟨[75],[53],5,by decide,by decide,.unsigned (by decide) (by simp [isDigit]),by norm_num,by simp⟩,
      rfl,rfl,rfl⟩
  obtain ⟨c,hbefore,hname,hafter⟩ : ∃ c : Common, c.before = [s] ∧ c.name = [97] ∧ c.after = [] :=
    ⟨⟨[s],[97],[],by decide,by simp [fileName]⟩,rfl,rfl,rfl⟩
  have hnumbers : c.numbers = [5] := by simp [numbers,hbefore,hafter,hnum]
  have hline : ∀ s ∈ c.before ++ c.after, 0 ∉ s.key ∧ s.line.length + 1 < 512 := by
    simp [hbefore,hafter,hkey,Setting.line,hvalue]
  have hres := c.readConfFile_eq (by simp [hname]) (by simp [hname,fileName]) hline [] [49] [] []
  rw [hname,hnumbers] at hres
  refine ⟨c,hname,hnumbers,hres,?_⟩
  rw [hres,hname,hnumbers]
  intro h
  cases h

end Common

end BTRx

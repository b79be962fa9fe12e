import BTRx.Entrypoint.Config

/-! # Reading `PeerInfo.cfg`

The lines are cut where they stand, so a zero byte ends a line as it ends a C string. In
every other line that is written from a record the first three tokens are the columns as
they were written, and the newline is left to the last one, which is read as a number.
-/
namespace BTRx
open Text

/-- The vectors that `read_peer_info` fills. -/
structure PeerColumns where
  peerIds : List ℤ
  peerHosts : List (List UInt8)
  peerPorts : List (List UInt8)
  peerHasfile : List Bool
  deriving DecidableEq

/-- The body of the loop, on `ret` and the vectors. The copy in `buf` is never read. -/
def peerLine (pid : ℤ) (st : ℤ × PeerColumns) (line : List UInt8) : Except Fault (ℤ × PeerColumns) := do
  let (word,rest) ← token (line.takeWhile (· ≠ 0))
  let peerid := toInt (strtol word)
  let (host,rest) ← token rest
  let (port,rest) ← token rest
  let ret := if peerid = pid then toInt (strtol port) else st.1
  let (hasfile,_) ← token rest
  return (ret,{
    peerIds := st.2.peerIds ++ [peerid]
    peerHosts := st.2.peerHosts ++ [host]
    peerPorts := st.2.peerPorts ++ [port]
    peerHasfile := st.2.peerHasfile ++ [decide (strtol hasfile ≠ 0)] })

/-- `read_peer_info(fname, pid, ...)`, on the file that `fopen` finds, with what it returns
and the vectors after it. -/
def readPeerInfo (file : Option (List UInt8)) (pid : ℤ) (cols : PeerColumns) :
    Except Fault (ℤ × PeerColumns) :=
  match file with
  | none => .error .exit
  | some text => (lines 10 text).foldlM (peerLine pid) (0,cols)

/-! ## Files of records -/

structure PeerRecord where
  id : ℤ
  host : List UInt8
  port : ℕ
  hasfile : Bool
  idRange : -2 ^ 31 ≤ id ∧ id < 2 ^ 31
  hostWord : host ≠ [] ∧ 32 ∉ host ∧ 10 ∉ host
  portRange : port ≤ 65535

namespace PeerRecord

/-- The line of a record without its newline. -/
def line (r : PeerRecord) : List UInt8 :=
  decimal r.id ++ 32 :: (r.host ++ 32 :: (decimal r.port ++ 32 :: [if r.hasfile then 49 else 48]))

def text (rs : List PeerRecord) : List UInt8 := rs.flatMap fun r => r.line ++ [10]

/-- The columns of the records. -/
def columns (rs : List PeerRecord) : PeerColumns where
  peerIds := rs.map (·.id)
  peerHosts := rs.map (·.host)
  peerPorts := rs.map fun r => decimal r.port
  peerHasfile := rs.map (·.hasfile)

/-- The port of the last record with an id. -/
def lastPort (pid : ℤ) (rs : List PeerRecord) : ℤ :=
  match rs.reverse.find? fun r => r.id = pid with
  | none => 0
  | some r => r.port

variable {r : PeerRecord} {rs : List PeerRecord} {pid : ℤ}

theorem decimal_not_mem {z : ℤ} {c : UInt8} (hc : c.toNat < 43) : c ∉ decimal z :=
  (numeral_decimal z).not_mem hc

theorem newline_notMem (r : PeerRecord) : 10 ∉ r.line := by
  have hd : ∀ z, (10 : UInt8) ∉ decimal z := fun z => decimal_not_mem (by decide)
  have hflag : (10 : UInt8) ≠ if r.hasfile then 49 else 48 := by
    split <;> decide
  simp [line,hd,r.hostWord.2.2,hflag]

/-- Without a zero byte in the host the whole line is a C string. -/
theorem takeWhile_line (h0 : 0 ∉ r.host) : (r.line ++ [10]).takeWhile (· ≠ 0) = r.line ++ [10] := by
  have hd : ∀ z, (0 : UInt8) ∉ decimal z := fun z => decimal_not_mem (by decide)
  have hflag : (0 : UInt8) ≠ if r.hasfile then 49 else 48 := by
    split <;> decide
  have hzero : (0 : UInt8) ∉ r.line ++ [10] := by simp [line,hd,h0,hflag]
  rw [List.takeWhile_eq_self_iff]
  intro c hc
  exact decide_eq_true fun heq => hzero (heq ▸ hc)

/-- The written numbers are read back. -/
theorem toInt_strtol_decimal {z : ℤ} (hlo : -2 ^ 31 ≤ z) (hhi : z < 2 ^ 31) :
    toInt (strtol (decimal z)) = z := by
  have hread : strtol (decimal z ++ []) = z :=
    strtol_numeral (numeral_decimal z) (by omega) (by omega) (by simp)
  rw [← List.append_nil (decimal z),hread,toInt_eq_self hlo hhi]

/-- One record is read back from its line. -/
theorem peerLine_line (h0 : 0 ∉ r.host) (st : ℤ × PeerColumns) :
    peerLine pid st (r.line ++ [10]) = .ok (if r.id = pid then (r.port : ℤ) else st.1,{
      peerIds := st.2.peerIds ++ [r.id]
      peerHosts := st.2.peerHosts ++ [r.host]
      peerPorts := st.2.peerPorts ++ [decimal r.port]
      peerHasfile := st.2.peerHasfile ++ [r.hasfile] }) := by
  have hword : ∀ z rest, token (decimal z ++ 32 :: rest) = .ok (decimal z,rest) := fun z rest =>
    token_eq_ok.mpr (strtok_word (numeral_decimal z).ne_nil (decimal_not_mem (by decide)))
  have hhost : ∀ rest, token (r.host ++ 32 :: rest) = .ok (r.host,rest) := fun rest =>
    token_eq_ok.mpr (strtok_word r.hostWord.1 r.hostWord.2.1)
  have hlast : token [if r.hasfile then 49 else 48,10] = .ok ([if r.hasfile then 49 else 48,10],[]) := by
    cases r.hasfile <;> rfl
  have hflag : decide (strtol [if r.hasfile then 49 else 48,10] ≠ 0) = r.hasfile := by
    cases r.hasfile <;> rfl
  have hline : r.line ++ [10] = decimal r.id ++ 32 :: (r.host ++ 32 :: (decimal r.port ++ 32 ::
      [if r.hasfile then 49 else 48,10])) := by simp [line]
  have hport := r.portRange
  rw [peerLine,takeWhile_line h0,hline]
  simp only [hword,hhost,hlast,Outcome.ok_bind,hflag,toInt_strtol_decimal r.idRange.1 r.idRange.2,
    toInt_strtol_decimal (show -2 ^ 31 ≤ (r.port : ℤ) by omega) (show (r.port : ℤ) < 2 ^ 31 by omega)]
  rfl

/-- A host that starts with a zero byte ends the line before it. -/
theorem peerLine_of_zero {h : List UInt8} (h0 : r.host = 0 :: h) (st : ℤ × PeerColumns) :
    peerLine pid st (r.line ++ [10]) = .error .nullPointer := by
  have hd : ∀ c ∈ decimal r.id ++ [32], decide (c ≠ 0) = true := by
    intro c hc
    rcases List.mem_append.mp hc with hc | hc
    · exact decide_eq_true fun heq => decimal_not_mem (by decide) (heq ▸ hc)
    · rw [List.mem_singleton.mp hc]
      rfl
  have hline : r.line ++ [10] = (decimal r.id ++ [32]) ++ 0 ::
      (h ++ 32 :: (decimal r.port ++ 32 :: [if r.hasfile then 49 else 48,10])) := by simp [line,h0]
  have hcut : (r.line ++ [10]).takeWhile (· ≠ 0) = decimal r.id ++ 32 :: [] := by
    rw [hline,List.takeWhile_append_of_pos hd,List.takeWhile_cons_of_neg (by simp),List.append_nil]
  have hword := @strtok_word _ _ 32 _ [] (numeral_decimal r.id).ne_nil
    (decimal_not_mem (show (32 : UInt8).toNat < 43 by decide))
  rw [peerLine,hcut,token_eq_ok.mpr hword]
  rfl

theorem lines_text (rs : List PeerRecord) : lines 10 (text rs) = rs.map fun r => r.line ++ [10] :=
  lines_flatMap fun r _ => r.newline_notMem

theorem lastPort_concat (pid : ℤ) (rs : List PeerRecord) (r : PeerRecord) :
    lastPort pid (rs ++ [r]) = if r.id = pid then (r.port : ℤ) else lastPort pid rs := by
  unfold lastPort
  rw [List.reverse_append,List.reverse_singleton,List.singleton_append,List.find?_cons]
  by_cases h : r.id = pid
  · simp [h]
  · simp [h]

/-- The columns of any number of records without zero bytes are read back. -/
theorem readPeerInfo_text (h0 : ∀ r ∈ rs, 0 ∉ r.host) (pid : ℤ) :
    readPeerInfo (some (text rs)) pid ⟨[],[],[],[]⟩ = .ok (lastPort pid rs,columns rs) := by
  rw [readPeerInfo,lines_text]
  induction rs using List.reverseRecOn with
  | nil => rfl
  | append_singleton rs r ih =>
    obtain ⟨hrs,hr⟩ := List.forall_mem_append.mp h0
    rw [List.map_append,List.foldlM_append,ih hrs,Outcome.ok_bind,List.map_singleton,
      List.foldlM_cons,peerLine_line (hr r List.mem_cons_self),lastPort_concat]
    simp [columns]

/-- Two records with the same id. -/
theorem readPeerInfo_text_two : ∃ rs : List PeerRecord, rs.map (·.id) = [1001,1001] ∧
    rs.map (·.port) = [6008,6009] ∧
    readPeerInfo (some (text rs)) 1001 ⟨[],[],[],[]⟩ = .ok (6009,columns rs) := by
  refine ⟨[⟨1001,[104],6008,true,by norm_num,by decide,by norm_num⟩,
    ⟨1001,[105],6009,false,by norm_num,by decide,by norm_num⟩],rfl,rfl,?_⟩
  exact readPeerInfo_text (by decide) 1001

/-- A host that is one zero byte. -/
theorem readPeerInfo_text_zero : ∃ r : PeerRecord, ∀ pid,
    readPeerInfo (some (text [r])) pid ⟨[],[],[],[]⟩ ≠ .ok (lastPort pid [r],columns [r]) := by
  obtain ⟨r,hr⟩ : ∃ r : PeerRecord, r.host = [0] :=
    ⟨⟨1,[0],80,true,by norm_num,by decide,by norm_num⟩,rfl⟩
  refine ⟨r,fun pid h => ?_⟩
  rw [readPeerInfo,lines_text,List.map_singleton,List.foldlM_cons,peerLine_of_zero hr] at h
  cases h

end PeerRecord

end BTRx

import BTRx.Base.Text
import BTRx.Node.Process
import BTRx.Node.Setup

/-! # The start of a node

The constructor of `Node` listens, builds the store and the map, and calls the peers that
are listed before it. When `connback` comes to the row of the node itself, `bfield_init`
lets a shell make the shared file, or leaves it as it is, and opens it. What the system
does is a parameter.
-/
namespace BTRx
open Memory Text

/-- Files by their names. -/
abbrev Disk := List UInt8 → Option (List Cell)

/-- What a process finds around it. `stack` is what a buffer holds before it is written. -/
structure System where
  common : Option (List UInt8)
  peerInfo : Option (List UInt8)
  stack : List UInt8
  listens : ℤ → Bool
  dial : PeerRow → Option (List Attempt)
  shell : List UInt8 → Disk → Disk
  disk : Disk

/-- `"/usr/bin/head -c %d /dev/zero > %s"`. -/
def headCommand (fsz : ℕ) (fname : List UInt8) : List UInt8 :=
  [47,117,115,114,47,98,105,110,47,104,101,97,100,32,45,99,32] ++ decimal fsz ++
    [32,47,100,101,118,47,122,101,114,111,32,62,32] ++ fname

/-- The disk after the command, which has to fit `cmd`. -/
def ObjStore.makeFile (sys : System) (fname : List UInt8) (hasfile : Bool) (s : ObjStore) : Except Fault Disk :=
  if hasfile then .ok sys.disk
  else if (headCommand s.fsz fname).length < 512 then .ok (sys.shell (headCommand s.fsz fname) sys.disk)
  else .error .outOfRange

/-- `ObjStore::bfield_init(bool hasfile)` with the call of `file_open`. -/
def ObjStore.bfieldOpen (sys : System) (fname : List UInt8) (hasfile : Bool) (s : ObjStore) :
    Except Fault ObjStore := do
  let disk ← s.makeFile sys fname hasfile
  match disk fname with
  | none => .error .exit
  | some data =>
    return { s with bfield := Bfield.ofFile hasfile s.npcs, cache := { s.cache with file := ⟨data,0⟩ } }

/-- The loop of `connback` on a disk. -/
def Setup.connbackOpen (sys : System) (fname : List UInt8) :
    List PeerRow → UInt32 → Setup → Except Fault (UInt32 × Setup)
  | [],i,s => .ok (i + 1,s)
  | row :: rows,i,s =>
    if s.peerid = row.peerid then do
      let ost ← s.ost.bfieldOpen sys fname row.hasfile
      return (i + 1,{ s with ost })
    else
      match sys.dial row with
      | none => .error .exit
      | some attempts => do
        let s ← s.tryAll row.peerid attempts
        s.connbackOpen sys fname rows (i + 1)

/-- A node between its two loops. -/
structure Started where
  port : ℤ
  conns : UInt32
  setup : Setup
  nmap : NbrMap

def valAt (vals : List ℤ) (i : ℕ) : Except Fault ℤ :=
  match vals[i]? with
  | none => .error .outOfRange
  | some v => .ok v

/-- `Node(peerid, addr, port, sh_fname, ..., vals)` up to `acceptloop`, for sizes that are not
negative. -/
def Started.new (sys : System) (peerid port : ℤ) (shFname : List UInt8) (rows : List PeerRow)
    (vals : List ℤ) : Except Fault Started :=
  if sys.listens port then do
    let fsz ← valAt vals 3
    let pcsz ← valAt vals 4
    if pcsz = 0 then .error .divByZero
    else
      let npcs := npcsOf fsz.toNat pcsz.toNat
      let ost ← ObjStore.new fsz.toNat pcsz.toNat npcs
      let (conns,setup) ← Setup.connbackOpen sys shFname rows 0 ⟨peerid,ost,[]⟩
      return ⟨port,conns,setup,NbrMap.new (UInt32.ofNat rows.length) npcs⟩
  else .error .exit

namespace Started

def acceptloop (s : Started) (rows : List PeerRow) (arriving : List Link) : Option (List Link × Setup) :=
  s.setup.acceptloop s.conns (UInt32.ofNat rows.length) arriving

/-- The threads of the map sleep first, and no handler has taken a step. -/
def process (ι : Type) (s : Started) : Process ι :=
  ⟨⟨s.setup.ost,s.nmap,fun _ => Thread.new⟩,.sleeping,.sleeping⟩

end Started

/-! ## The shared file -/

/-- To the shell the name is one word, and its file can be written; a newline ends the command. -/
structure System.Redirects (sys : System) (n : ℕ) (w : List UInt8) : Prop where
  runs : sys.shell (headCommand n w) sys.disk = Function.update sys.disk w (some (List.replicate n (some 0)))
  newline : sys.shell (headCommand n (w ++ [10])) sys.disk = sys.shell (headCommand n w) sys.disk

variable {sys : System} {fname : List UInt8} {hasfile : Bool} {ost : ObjStore} {data : List Cell}

/-- A file is found with what the store has of it from then on. -/
structure System.Finds (sys : System) (fname : List UInt8) (hasfile : Bool) (fsz : ℕ) (data : List Cell) :
    Prop where
  fits : (headCommand fsz fname).length < 512
  held : hasfile = true → sys.disk fname = some data
  made : hasfile = false → sys.Redirects fsz fname

namespace ObjStore

theorem bfieldOpen_finds (h : sys.Finds fname hasfile ost.fsz data) :
    ost.bfieldOpen sys fname hasfile = .ok (ost.bfieldInit hasfile data) := by
  cases hasfile with
  | true => simp [bfieldOpen,makeFile,h.held rfl,bfieldInit]
  | false => simp [bfieldOpen,makeFile,h.fits,(h.made rfl).runs,bfieldInit]

/-- No shell makes a file whose name ends with a newline. -/
theorem bfieldOpen_newline (hfit : (headCommand ost.fsz (fname ++ [10])).length < 512)
    (hdisk : sys.disk (fname ++ [10]) = none) (hsh : hasfile = false → sys.Redirects ost.fsz fname) :
    ost.bfieldOpen sys (fname ++ [10]) hasfile = .error .exit := by
  have hne : fname ++ [10] ≠ fname := by simp
  cases hasfile with
  | true => simp [bfieldOpen,makeFile,hdisk]
  | false => simp [bfieldOpen,makeFile,hfit,(hsh rfl).newline,(hsh rfl).runs,hne,hdisk]

end ObjStore

/-! ## connback -/

namespace Setup
variable {rows : List PeerRow} {s s' : Setup}

theorem tryAll_same {attempts : List Attempt} {peer : ℤ} (h : s.tryAll peer attempts = .ok s') :
    s'.peerid = s.peerid ∧ s'.ost = s.ost := by
  induction attempts with
  | nil =>
    cases h
    exact ⟨rfl,rfl⟩
  | cons attempt attempts ih =>
    cases attempt with
    | noSocket => cases h
    | connected =>
      cases h
      exact ⟨rfl,rfl⟩
    | refused => exact ih h

theorem tryAll_error {attempts : List Attempt} {peer : ℤ} {f : Fault}
    (h : s.tryAll peer attempts = .error f) : f = .exit := by
  induction attempts with
  | nil => cases h
  | cons attempt attempts ih =>
    cases attempt with
    | noSocket =>
      cases h
      rfl
    | connected => cases h
    | refused => exact ih h

/-- Where the file is found, the loop is the one without a disk. -/
theorem connbackOpen_eq (h : ∀ row ∈ rows, row.peerid = s.peerid →
    s.ost.bfieldOpen sys fname row.hasfile = .ok (s.ost.bfieldInit row.hasfile data)) (i : UInt32) :
    s.connbackOpen sys fname rows i = s.connback sys.dial data rows i := by
  induction rows generalizing s i with
  | nil => rfl
  | cons row rows ih =>
    obtain ⟨hrow,hrows⟩ := List.forall_mem_cons.mp h
    rw [connbackOpen,connback]
    by_cases hp : s.peerid = row.peerid
    · rw [if_pos hp,if_pos hp,hrow hp.symm]
      rfl
    · rw [if_neg hp,if_neg hp]
      cases sys.dial row with
      | none => rfl
      | some attempts =>
        cases ht : s.tryAll row.peerid attempts with
        | error f => simp only [ht,Outcome.error_bind]
        | ok s' =>
          obtain ⟨hid,host⟩ := tryAll_same ht
          simp only [ht,Outcome.ok_bind]
          exact ih (by rwa [hid,host]) (i + 1)

/-- Where the file is not found, the process ends at the row of the node if not before. -/
theorem connbackOpen_exit (hlisted : ∃ row ∈ rows, row.peerid = s.peerid)
    (h : ∀ row ∈ rows, row.peerid = s.peerid → s.ost.bfieldOpen sys fname row.hasfile = .error .exit)
    (i : UInt32) : s.connbackOpen sys fname rows i = .error .exit := by
  induction rows generalizing s i with
  | nil =>
    obtain ⟨_,hrow,_⟩ := hlisted
    cases hrow
  | cons row rows ih =>
    obtain ⟨hrow,hrows⟩ := List.forall_mem_cons.mp h
    rw [connbackOpen]
    by_cases hp : s.peerid = row.peerid
    · rw [if_pos hp,hrow hp.symm,Outcome.error_bind]
    · rw [if_neg hp]
      cases sys.dial row with
      | none => rfl
      | some attempts =>
        cases ht : s.tryAll row.peerid attempts with
        | error f => simp only [ht,Outcome.error_bind,tryAll_error ht]
        | ok s' =>
          obtain ⟨hid,host⟩ := tryAll_same ht
          have hlater : ∃ row ∈ rows, row.peerid = s.peerid := by
            obtain ⟨own,hown,heq⟩ := hlisted
            rcases List.mem_cons.mp hown with rfl | hown
            · exact absurd heq.symm hp
            · exact ⟨own,hown,heq⟩
          simp only [ht,Outcome.ok_bind]
          exact ih (by rwa [hid]) (by rwa [hid,host]) (i + 1)

end Setup

/-! ## The node -/

namespace Started
variable {rows : List PeerRow} {peerid port : ℤ} {vals : List ℤ} {fsz pcsz : ℕ}

/-- The store of a node before `bfield_init`. -/
def emptyStore (fsz pcsz : ℕ) : ObjStore :=
  let npcs := npcsOf fsz pcsz
  ⟨fsz,pcsz,npcs,⟨∅,[],[],⟨[],0⟩,pcsz,npcs,cachesz / npcs⟩,⟨[]⟩⟩

/-- The sizes stand behind the three numbers of the unchoke threads. -/
def Sized (vals : List ℤ) (fsz pcsz : ℕ) : Prop :=
  0 < fsz ∧ 0 < pcsz ∧ ∃ nPrefPeers uchokeIval opuchokeIval rest,
    vals = nPrefPeers :: uchokeIval :: opuchokeIval :: (fsz : ℤ) :: pcsz :: rest

theorem new_eq (h : Sized vals fsz pcsz) (hport : sys.listens port = true) :
    Started.new sys peerid port fname rows vals = do
      let (conns,setup) ← Setup.connbackOpen sys fname rows 0 ⟨peerid,emptyStore fsz pcsz,[]⟩
      return ⟨port,conns,setup,NbrMap.new (UInt32.ofNat rows.length) (npcsOf fsz pcsz)⟩ := by
  obtain ⟨hfsz,hpcsz,a,b,c,rest,rfl⟩ := h
  have hne : (pcsz : ℤ) ≠ 0 := by omega
  have hnpcs := npcsOf_pos hfsz hpcsz
  have hnew : ObjStore.new fsz pcsz (npcsOf fsz pcsz) = .ok (emptyStore fsz pcsz) :=
    ObjStore.new_eq_ok.mpr ⟨hnpcs.ne',rfl⟩
  simp only [Started.new,hport,if_true,valAt,List.getElem?_cons_succ,List.getElem?_cons_zero,Outcome.ok_bind,
    if_neg hne,Int.toNat_natCast,hnew]

end Started

end BTRx

import BTRx.Entrypoint.PeerInfo
import BTRx.Network.Network
import BTRx.Node.Start
import BTRx.ObjStore.Geometry

/-! # From the two files to the network

`main` reads `Common.cfg` and `PeerInfo.cfg` and makes the node. Where the `FileName` line
ends with a newline, so does the name that is opened, and no process starts. Where the
file ends with the name, the processes form the mesh that the network starts from.
-/
namespace BTRx
open Memory Text

/-- The characters of a C string as those of a row. -/
def latin (s : List UInt8) : String := String.ofList (s.map fun c => Char.ofNat c.toNat)

/-- The vectors side by side. -/
def PeerColumns.rows (cols : PeerColumns) : List PeerRow :=
  (cols.peerIds.zip (cols.peerHosts.zip (cols.peerPorts.zip cols.peerHasfile))).map fun x =>
    ⟨x.1,latin x.2.1,latin x.2.2.1,x.2.2.2⟩

/-- The globals and the node. -/
structure Launched where
  nPrefPeers : ℤ
  uchokeIval : ℤ
  opuchokeIval : ℤ
  node : Started

/-- `main(argc, argv)` up to `acceptloop`. -/
def main (sys : System) (argv : List (List UInt8)) : Except Fault Launched :=
  match argv with
  | [_,arg] => do
    let peerid := toInt (strtol arg)
    let (shFname,vals) ← readConfFile sys.common sys.stack arg [] []
    let (port,cols) ← readPeerInfo sys.peerInfo peerid ⟨[],[],[],[]⟩
    let nPrefPeers ← valAt vals 0
    let uchokeIval ← valAt vals 1
    let opuchokeIval ← valAt vals 2
    let node ← Started.new sys peerid port shFname cols.rows vals
    return ⟨nPrefPeers,uchokeIval,opuchokeIval,node⟩
  | _ => .error .exit

/-! ## The files -/

/-- No zero bytes, and room for every line. -/
structure Common.Clean (c : Common) : Prop where
  name : 0 ∉ c.name
  fits : (fileName ++ 32 :: c.name).length + 1 < 512
  settings : ∀ s ∈ c.before ++ c.after, 0 ∉ s.key ∧ s.line.length + 1 < 512

theorem confLine_last {junk peerid name : List UInt8} {conf : List UInt8 × List ℤ} (hne : name ≠ [])
    (hw : 32 ∉ name) (h0 : 0 ∉ name) (hfit : (fileName ++ 32 :: name).length + 1 < 512) :
    confLine junk peerid conf (fileName ++ 32 :: name) = .ok (peerid ++ [47] ++ name,conf.2) := by
  have hn : name.length + 1 < 511 - fileName.length := by
    simp [fileName] at hfit ⊢
    omega
  have hvalue : token (cString (strncpy (511 - fileName.length) (name.map some ++ [some 0])) junk) =
      .ok (name,[]) := by
    rw [token_eq_ok,cString_strncpy_append h0 (by omega),cString_strncpy_zero (by omega),List.append_nil,
      strtok_last hne hw]
  rw [confLine_of_token (token_key ⟨by decide,by decide⟩ (by decide) (by decide)),hvalue]
  rfl

/-- A file that ends with the name gives the name. -/
theorem Common.readConfFile_dropLast {c : Common} (hlast : c.after = []) (hne : c.name ≠ []) (h : c.Clean)
    (junk peerid shFname : List UInt8) (vals : List ℤ) :
    readConfFile (some c.text.dropLast) junk peerid shFname vals =
      .ok (peerid ++ [47] ++ c.name,vals ++ c.numbers) := by
  have htext : c.text.dropLast = (c.before.flatMap fun s => s.line ++ [10]) ++ (fileName ++ 32 :: c.name) := by
    have hend : c.text =
        ((c.before.flatMap fun s => s.line ++ [10]) ++ (fileName ++ 32 :: c.name)) ++ [10] := by
      simp [Common.text,Common.rows,hlast,List.flatMap_append,List.flatMap_map]
    rw [hend,List.dropLast_concat]
  have hname : 10 ∉ fileName ++ 32 :: c.name := by simp [fileName,c.word.2]
  have hbefore : ∀ s ∈ c.before, 0 ∉ s.key ∧ s.line.length + 1 < 512 := fun s hs =>
    h.settings s (List.mem_append_left _ hs)
  simp only [readConfFile,htext]
  rw [lines_flatMap_append (fun s _ => s.newline_notMem) hname (by simp),List.foldlM_append,
    Common.foldlM_settings_eq hbefore,Outcome.ok_bind,List.foldlM_cons,
    confLine_last hne c.word.1 h.name h.fits]
  simp [Common.numbers,hlast]

namespace PeerRecord
variable {rs : List PeerRecord}

def row (r : PeerRecord) : PeerRow := ⟨r.id,latin r.host,latin (decimal r.port),r.hasfile⟩

theorem columns_rows (rs : List PeerRecord) : (columns rs).rows = rs.map row := by
  simp [columns,PeerColumns.rows,List.zip_map',List.map_map,Function.comp_def,row]

/-- A record is found by its id. -/
theorem lastPort_eq {r : PeerRecord} (hnd : (rs.map PeerRecord.id).Nodup) (hr : r ∈ rs) :
    lastPort r.id rs = r.port := by
  unfold lastPort
  cases hfind : rs.reverse.find? fun q => q.id = r.id with
  | none => exact absurd (List.find?_eq_none.mp hfind r (List.mem_reverse.mpr hr)) (by simp)
  | some q =>
    have hid : q.id = r.id := by simpa using List.find?_some hfind
    have hq : q ∈ rs := List.mem_reverse.mp (List.mem_of_find?_eq_some hfind)
    rw [List.inj_on_of_nodup_map hnd hq hr hid]

end PeerRecord

/-! ## One process -/

section
variable {sys : System} {arg shFname : List UInt8} {vals : List ℤ} {rs : List PeerRecord} {fsz pcsz : ℕ}

theorem main_eq (hconf : readConfFile sys.common sys.stack arg [] [] = .ok (shFname,vals))
    (hpeers : sys.peerInfo = some (PeerRecord.text rs)) (h0 : ∀ r ∈ rs, 0 ∉ r.host)
    (hvals : Started.Sized vals fsz pcsz) : ∃ a b c, vals.take 3 = [a,b,c] ∧
      ∀ prog, main sys [prog,arg] = (do
        let node ← Started.new sys (toInt (strtol arg)) (PeerRecord.lastPort (toInt (strtol arg)) rs) shFname
          (rs.map PeerRecord.row) vals
        return ⟨a,b,c,node⟩) := by
  have hread := PeerRecord.readPeerInfo_text h0 (toInt (strtol arg))
  obtain ⟨_,_,a,b,c,rest,rfl⟩ := hvals
  refine ⟨a,b,c,rfl,fun prog => ?_⟩
  simp only [main,hconf,hpeers,hread,Outcome.ok_bind,PeerRecord.columns_rows,valAt,List.getElem?_cons_zero,
    List.getElem?_cons_succ]

/-- On a file as it should be written, with a newline at the end of the `FileName` line, every process
of the list exits before it has a bitfield, whatever becomes of its connections. -/
theorem newline_exits {c : Common} (hc : c.Clean) (hvals : Started.Sized c.numbers fsz pcsz)
    (h0 : ∀ r ∈ rs, 0 ∉ r.host) (hcommon : sys.common = some c.text)
    (hpeers : sys.peerInfo = some (PeerRecord.text rs)) (hself : ∃ r ∈ rs, r.id = toInt (strtol arg))
    (hfit : (headCommand fsz (arg ++ [47] ++ c.name ++ [10])).length < 512)
    (hdisk : sys.disk (arg ++ [47] ++ c.name ++ [10]) = none)
    (hsh : sys.Redirects fsz (arg ++ [47] ++ c.name)) (prog : List UInt8) :
    main sys [prog,arg] = .error .exit := by
  have hconf := c.readConfFile_eq hc.name hc.fits hc.settings sys.stack arg [] []
  rw [← hcommon,← List.append_assoc,List.nil_append] at hconf
  obtain ⟨n,u,o,_,hmain⟩ := @main_eq sys arg _ _ rs fsz pcsz hconf hpeers h0 hvals
  rw [hmain]
  by_cases hport : sys.listens (PeerRecord.lastPort (toInt (strtol arg)) rs) = true
  · have hopen : ∀ row ∈ rs.map PeerRecord.row, row.peerid = toInt (strtol arg) →
        (Started.emptyStore fsz pcsz).bfieldOpen sys (arg ++ [47] ++ c.name ++ [10]) row.hasfile =
          .error .exit :=
      fun row _ _ => ObjStore.bfieldOpen_newline hfit hdisk fun _ => hsh
    have hlisted : ∃ row ∈ rs.map PeerRecord.row, row.peerid = toInt (strtol arg) := by
      obtain ⟨r,hr,hid⟩ := hself
      exact ⟨r.row,List.mem_map_of_mem hr,hid⟩
    simp only [Started.new_eq hvals hport]
    rw [Setup.connbackOpen_exit hlisted hopen]
    rfl
  · simp only [Started.new,hport]
    rfl

theorem letter_length (k d : UInt8) : [k] ≠ fileName ∧ ([k] ++ 32 :: [d]).length < 512 := by
  simp [fileName]

theorem digit_range (d : UInt8) : -2 ^ 31 ≤ (digitsVal [d] : ℤ) ∧ (digitsVal [d] : ℤ) < 2 ^ 31 := by
  have hlt := d.toNat_lt
  simp only [digitsVal,List.foldl_cons,List.foldl_nil]
  omega

/-- A line with a key of one letter and a value of one digit. -/
def Setting.letter (k d : UInt8) (hk : k ≠ 32 ∧ k ≠ 10) (hd : isDigit d = true) : Setting where
  key := [k]
  value := [d]
  number := digitsVal [d]
  word := ⟨List.cons_ne_nil _ _,fun h => hk.1 (List.mem_singleton.mp h).symm,
    fun h => hk.2 (List.mem_singleton.mp h).symm⟩
  other := (letter_length k d).1
  numeral := .unsigned (List.cons_ne_nil _ _) (List.forall_mem_singleton.mpr hd)
  range := digit_range d
  short := (letter_length k d).2

/-- A file of three bytes in pieces of two, with the name `a`. -/
def Common.demo : Common :=
  ⟨[.letter 78 49 (by decide) (by decide),.letter 85 53 (by decide) (by decide),
    .letter 79 57 (by decide) (by decide),.letter 83 51 (by decide) (by decide),
    .letter 80 50 (by decide) (by decide)],[97],[],by decide,by decide⟩

theorem Common.demo_clean : demo.Clean :=
  ⟨by decide,by decide,by decide⟩

theorem Common.demo_sized : Started.Sized demo.numbers 3 2 :=
  ⟨by decide,by decide,1,5,9,[],by decide⟩

/-- A shell for one size, up to the newline. -/
def System.sh (n : ℕ) (cmd : List UInt8) (disk : Disk) : Disk :=
  Function.update disk ((cmd.drop (headCommand n []).length).takeWhile (· ≠ 10))
    (some (List.replicate n (some 0)))

theorem System.redirects_sh {n : ℕ} {w : List UInt8} (hw : 10 ∉ w) (h : sys.shell = System.sh n) :
    sys.Redirects n w := by
  have hcmd : ∀ v, (headCommand n v).drop (headCommand n []).length = v := fun v => by
    have hv : headCommand n v = headCommand n [] ++ v := by simp [headCommand]
    rw [hv,List.drop_left]
  have htake : w.takeWhile (· ≠ 10) = w := by
    rw [List.takeWhile_eq_self_iff]
    exact fun c hc => decide_eq_true fun heq => hw (heq ▸ hc)
  have hcut : (w ++ [10]).takeWhile (· ≠ 10) = w := by
    rw [List.takeWhile_append_of_pos (List.takeWhile_eq_self_iff.mp htake)]
    simp
  refine ⟨?_,?_⟩
  · rw [h,System.sh,hcmd,htake]
  · rw [h]
    funext d
    rw [System.sh,System.sh,hcmd,hcmd,hcut,htake]

/-- Two processes, of which the first has the file. -/
def PeerRecord.pair : List PeerRecord :=
  [⟨1,[104],6008,true,by norm_num,by decide,by norm_num⟩,
    ⟨2,[104],6009,false,by norm_num,by decide,by norm_num⟩]

/-- The system of both, on which the file is at its place. -/
def System.demo (common : List UInt8) : System where
  common := some common
  peerInfo := some (PeerRecord.text PeerRecord.pair)
  stack := []
  listens _ := true
  dial _ := some [.refused,.connected]
  shell := System.sh 3
  disk := Function.update (fun _ => none) [49,47,97] (some [some 7,some 8,some 9])

theorem newline_exits_two :
    main (System.demo Common.demo.text) [[],[49]] = .error .exit ∧
      main (System.demo Common.demo.text) [[],[50]] = .error .exit :=
  ⟨newline_exits Common.demo_clean Common.demo_sized (by decide) rfl rfl ⟨_,List.mem_cons_self,by decide⟩
      (by decide) (by decide) (System.redirects_sh (by decide) rfl) [],
    newline_exits Common.demo_clean Common.demo_sized (by decide) rfl rfl
      ⟨_,List.mem_cons_of_mem _ List.mem_cons_self,by decide⟩ (by decide) (by decide)
      (System.redirects_sh (by decide) rfl) []⟩

end

/-! ## All processes -/

/-- The processes of one pair of files. Process `k` has its own system, is started with the argument
`arg k`, and has `data k` in its shared file if the list says that it has the file. -/
structure Cluster where
  common : Common
  peers : List PeerRecord
  fsz : ℕ
  pcsz : ℕ
  sys : ℕ → System
  arg : ℕ → List UInt8
  data : ℕ → List Cell

namespace Cluster

def shFname (x : Cluster) (k : ℕ) : List UInt8 := x.arg k ++ [47] ++ x.common.name

/-- The nodes in front of `connback`. -/
def mesh (x : Cluster) : Mesh where
  rows := x.peers.map PeerRecord.row
  node k := ⟨((x.peers.map PeerRecord.row).get k).peerid,Started.emptyStore x.fsz x.pcsz,[]⟩
  dial k := (x.sys k).dial
  disk k := x.data k

abbrev Proc (x : Cluster) := Fin x.mesh.rows.length

def record (x : Cluster) (k : x.Proc) : PeerRecord := x.peers.get ⟨k.val,by simpa [mesh] using k.isLt⟩

/-- The file ends with the name, every process is started with its id, its port is free, it finds the
shared file, and the peers listed before it answer. -/
structure Ready (x : Cluster) : Prop where
  last : x.common.after = [] ∧ x.common.name ≠ []
  clean : x.common.Clean
  sized : Started.Sized x.common.numbers x.fsz x.pcsz
  hosts : ∀ r ∈ x.peers, 0 ∉ r.host
  distinct : (x.peers.map PeerRecord.id).Nodup
  nonzero : ∀ r ∈ x.peers, r.id ≠ 0
  common : ∀ k, (x.sys k).common = some x.common.text.dropLast
  peerInfo : ∀ k, (x.sys k).peerInfo = some (PeerRecord.text x.peers)
  arg : ∀ k r, x.peers[k]? = some r → toInt (strtol (x.arg k)) = r.id
  listens : ∀ k r, x.peers[k]? = some r → (x.sys k).listens r.port = true
  finds : ∀ k r, x.peers[k]? = some r → (x.sys k).Finds (x.shFname k) r.hasfile x.fsz (x.data k)
  reach : ∀ i j r, i < j → x.peers[i]? = some r → ∃ attempts, (x.sys j).dial r.row = some attempts ∧
    Setup.Answers attempts

/-- What `main` leaves on process `k`. -/
def started (x : Cluster) (k : x.Proc) : Started :=
  { port := (x.record k).port
    conns := (x.mesh.called k).1
    setup := (x.mesh.called k).2
    nmap := NbrMap.new (UInt32.ofNat x.mesh.rows.length) (npcsOf x.fsz x.pcsz) }

variable {x : Cluster}

theorem getElem?_record (k : x.Proc) : x.peers[k.val]? = some (x.record k) :=
  List.getElem?_eq_getElem _

theorem row_eq (k : x.Proc) : x.mesh.rows.get k = (x.record k).row :=
  List.getElem_map _

theorem Ready.listed (h : x.Ready) : x.mesh.Listed where
  distinct := by
    have hids : x.mesh.ids = x.peers.map PeerRecord.id := by simp [mesh,Mesh.ids,PeerRecord.row]
    rw [hids]
    exact h.distinct
  nonzero := List.forall_mem_map.mpr h.nonzero
  int := List.forall_mem_map.mpr fun r _ => r.idRange
  own k := ⟨rfl,rfl⟩
  reach i j hij := by
    rw [row_eq]
    exact h.reach i j _ hij (getElem?_record i)

theorem Ready.opens (h : x.Ready) (k : x.Proc) :
    Setup.connbackOpen (x.sys k) (x.shFname k) (x.peers.map PeerRecord.row) 0
      ⟨(x.record k).id,Started.emptyStore x.fsz x.pcsz,[]⟩ = .ok (x.mesh.called k) := by
  have hopen : ∀ row ∈ x.mesh.rows, row.peerid = (x.mesh.node k).peerid →
      (x.mesh.node k).ost.bfieldOpen (x.sys k) (x.shFname k) row.hasfile =
        .ok ((x.mesh.node k).ost.bfieldInit row.hasfile (x.data k)) := by
    intro row hrow hid
    obtain ⟨i,rfl⟩ := List.get_of_mem hrow
    rw [h.listed.idAt_inj.mp hid,row_eq]
    exact ObjStore.bfieldOpen_finds (h.finds k _ (getElem?_record k))
  have hnode : (x.mesh.node k).peerid = (x.record k).id := congrArg PeerRow.peerid (row_eq k)
  have hconn := (Setup.connbackOpen_eq hopen 0).trans (h.listed.connback_eq k)
  rw [← hnode]
  exact hconn

theorem Ready.main_eq (h : x.Ready) (k : x.Proc) : ∃ a b c, x.common.numbers.take 3 = [a,b,c] ∧
    ∀ prog, main (x.sys k) [prog,x.arg k] = .ok ⟨a,b,c,x.started k⟩ := by
  have hk := getElem?_record k
  have hconf := Common.readConfFile_dropLast h.last.1 h.last.2 h.clean (x.sys k).stack (x.arg k) [] []
  rw [← h.common k,List.nil_append] at hconf
  obtain ⟨a,b,c,hglob,hmain⟩ :=
    @BTRx.main_eq (x.sys k) (x.arg k) _ _ x.peers x.fsz x.pcsz hconf (h.peerInfo k) h.hosts h.sized
  refine ⟨a,b,c,hglob,fun prog => ?_⟩
  rw [hmain,h.arg k _ hk,PeerRecord.lastPort_eq h.distinct (List.mem_of_getElem? hk),
    Started.new_eq h.sized (h.listens k _ hk)]
  rw [show x.arg k ++ [47] ++ x.common.name = x.shFname k from rfl,h.opens k]
  rfl

/-- The processes when all have called each other. They agree on the numbers, each listens where the
others look for it, and no handler has taken a step. -/
structure Serves (x : Cluster) (l : x.Proc → Launched) : Prop where
  main : ∀ prog (k : x.Proc), BTRx.main (x.sys k) [prog,x.arg k] = .ok (l k)
  globals : ∀ k, x.common.numbers.take 3 = [(l k).nPrefPeers,(l k).uchokeIval,(l k).opuchokeIval]
  port : ∀ k, (x.mesh.rows.get k).port = latin (decimal (l k).node.port)
  accepts : ∀ k arriving,
    arriving.Perm (@Mesh.madeTo x.mesh (fun j => ((l j).node.conns,(l j).node.setup)) k) →
      ∃ final, (l k).node.acceptloop x.mesh.rows arriving = some ([],final) ∧
        final.ost = (l k).node.setup.ost ∧ final.threads.length = x.peers.length - 1
  file : ∀ k, (l k).node.setup.ost.cache.file.data =
    if (x.record k).hasfile then x.data k else List.replicate x.fsz (some 0)
  bits : ∀ k, (l k).node.setup.ost.bfield = Bfield.ofFile (x.record k).hasfile (npcsOf x.fsz x.pcsz)
  gate : ∀ k, (l k).node.nmap.npeers.toNat = x.peers.length
  initial : ∀ net : Network, (∀ i, ∃ k, net.nodes i = ((l k).node.process End).node) →
    (∀ e, net.chan e = []) → net.Initial x.fsz x.pcsz

def pair : Cluster where
  common := Common.demo
  peers := PeerRecord.pair
  fsz := 3
  pcsz := 2
  sys _ := System.demo Common.demo.text.dropLast
  arg k := decimal (k + 1)
  data _ := [some 7,some 8,some 9]

end Cluster

end BTRx

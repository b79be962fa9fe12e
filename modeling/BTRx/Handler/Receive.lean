import BTRx.Base.Memory
import BTRx.Pkts.Codec

/-! # The receiving loop on a byte stream

One iteration peeks at the length prefix, receives that many bytes and reads them as a
document. `recv` is called once for each and its count is not looked at, so the cuts of
the stream decide. A cut is the number of bytes the two calls would deliver; the stream
and the requested size bound it, and a call never delivers nothing while bytes are left.
-/
namespace BTRx
open LittleEndian Json Bson Memory

def ewouldblock : ℕ := 11

/-- `snd` on a connection that takes every document whole. -/
def snd (stream : Bytes) (j : Json) : Except Fault Bytes := do
  return stream ++ (← toBson j)

structure Cut where
  peek : ℕ
  read : ℕ

/-- The bytes `recv(sock, buf, n, ..)` delivers out of those not yet consumed. -/
def recv (n c : ℕ) (avail : Bytes) : Bytes := avail.take (max 1 (min c n))

/-- `rcv_sz` on the result of its `recv`, where `none` stands for -1. It returns `none`
at the end of the stream. -/
def rcvSz (r : Option Bytes) : Except Fault (Option ℕ) :=
  match r with
  | none => .error .exit
  | some got =>
    if got.length = ewouldblock then .ok (some 0)
    else if got = [] then .ok none
    else .ok (some (ofLE (got ++ List.replicate (4 - got.length) 0)))

/-- `rcv` into a new buffer of `sz` bytes. -/
def rcv (r : Option Bytes) (sz : ℕ) : Except Fault (List Cell) :=
  match r with
  | none => .error .exit
  | some got => .ok (got.map some ++ uninit (sz - got.length))

/-- The vector handed to `from_bson`, which looks at every byte of it. -/
def determined (cmdr : List Cell) : Except Fault Bytes :=
  cmdr.mapM (fun c => match c with
    | some b => .ok b
    | none => .error .indeterminate)

/-- A connection inside the loop of `cli_handler`. -/
structure Receiver where
  avail : Bytes
  ntimeouts : ℕ
  decoded : List Json
  running : Bool

namespace Receiver

def start (stream : Bytes) : Receiver := ⟨stream,0,[],true⟩

/-- The branch for a size of zero, which the loop takes for a timeout. -/
def timeout (r : Receiver) : Receiver :=
  let ntimeouts := r.ntimeouts + 1
  if ntimeouts % 2 = 0 then { r with ntimeouts }
  else if ntimeouts = 5 then { r with ntimeouts, running := false }
  else { r with ntimeouts }

/-- One iteration, without the switch on the packet. Bytes of a peer that hold a double are not
modelled. -/
def iteration (c : Cut) (r : Receiver) : Except Fault Receiver := do
  if !r.running then return r
  match ← rcvSz (some (recv 4 c.peek r.avail)) with
  | none => return { r with running := false }
  | some sz =>
    if sz = 0 then return r.timeout
    let got := recv sz c.read r.avail
    let cmdr ← rcv (some got) sz
    let bson ← determined cmdr
    let j ← fromBson bson
    return { r with avail := r.avail.drop got.length, decoded := r.decoded ++ [j] }

def run : ℕ → Stream' Cut → Receiver → Except Fault Receiver
  | 0, _, r => .ok r
  | n + 1, cuts, r => do run n cuts.tail (← r.iteration cuts.head)

end Receiver

/-- What the zero-padded peek shows of a length. -/
def Cut.peeked (c : Cut) (len : ℕ) : ℕ := len % 256 ^ max 1 (min c.peek 4)

/-- The cuts spare the documents: a peek shows the length or zero, there are fewer than
five zeros in all, and a document is received in one piece. -/
inductive Framed : List Bytes → ℕ → Stream' Cut → Prop
  | done {z : ℕ} {cuts : Stream' Cut} : Framed [] z cuts
  | zero {doc : Bytes} {docs : List Bytes} {z : ℕ} {cuts : Stream' Cut}
      (hpeek : cuts.head.peeked doc.length = 0) (hz : z + 1 < 5)
      (rest : Framed (doc :: docs) (z + 1) cuts.tail) : Framed (doc :: docs) z cuts
  | whole {doc : Bytes} {docs : List Bytes} {z : ℕ} {cuts : Stream' Cut}
      (hpeek : cuts.head.peeked doc.length = doc.length) (hread : doc.length ≤ cuts.head.read)
      (rest : Framed docs z cuts.tail) : Framed (doc :: docs) z cuts

/-! ## One iteration in front of a document -/

theorem determined_map_some (bs : Bytes) : determined (bs.map some) = .ok bs := by
  induction bs with
  | nil => rfl
  | cons b bs ih =>
    simp only [determined] at ih
    simp only [determined,List.map_cons,List.mapM_cons,ih,Outcome.ok_bind,Outcome.pure_eq]

theorem determined_short (bs : Bytes) {n : ℕ} (hn : 0 < n) :
    determined (bs.map some ++ uninit n) = .error .indeterminate := by
  induction bs with
  | nil =>
    obtain ⟨n,rfl⟩ : ∃ k, n = k + 1 := ⟨n - 1,by omega⟩
    rfl
  | cons b bs ih =>
    simp only [determined] at ih
    simp only [determined,List.map_cons,List.cons_append,List.mapM_cons,ih,Outcome.ok_bind,
      Outcome.error_bind]

theorem recv_nil (n c : ℕ) : recv n c [] = [] := by simp [recv]

/-- The size a peek in front of a document yields. -/
theorem rcvSz_peek (c : Cut) {doc : Bytes} (h5 : 5 ≤ doc.length)
    (hpre : ofLE (doc.take 4) = doc.length) (rest : Bytes) :
    rcvSz (some (recv 4 c.peek (doc ++ rest))) = .ok (some (c.peeked doc.length)) := by
  have hk : max 1 (min c.peek 4) ≤ 4 := by omega
  generalize hm : max 1 (min c.peek 4) = k at hk
  have hk1 : 1 ≤ k := by omega
  have hgot : recv 4 c.peek (doc ++ rest) = (doc.take 4).take k := by
    rw [recv,hm,List.take_append_of_le_length (by omega),List.take_take,min_eq_left hk]
  have hlen4 : (doc.take 4).length = 4 := by
    rw [List.length_take]
    omega
  have hlen : ((doc.take 4).take k).length = k := by
    rw [List.length_take,hlen4]
    omega
  have hne : (doc.take 4).take k ≠ [] := by
    intro h
    rw [h,List.length_nil] at hlen
    omega
  have h11 : ¬ k = ewouldblock := by
    unfold ewouldblock
    omega
  rw [hgot]
  simp only [rcvSz,hlen,if_neg h11,if_neg hne]
  rw [ofLE_take _ _ _ (by omega),hpre,Cut.peeked,hm]

theorem recv_whole {c : ℕ} {doc : Bytes} (h5 : 5 ≤ doc.length) (hc : doc.length ≤ c) (rest : Bytes) :
    recv doc.length c (doc ++ rest) = doc := by
  rw [recv,min_eq_right hc,max_eq_right (by omega),List.take_left]

section Document
variable {c : Cut} {doc : Bytes} {j : Json} (hdoc : toBson j = .ok doc)
  (hpre : ofLE (doc.take 4) = doc.length) {rest : Bytes} {z : ℕ} {decoded : List Json}
include hdoc hpre

theorem iteration_zero (hpeek : c.peeked doc.length = 0) :
    Receiver.iteration c ⟨doc ++ rest,z,decoded,true⟩ =
      .ok (Receiver.timeout ⟨doc ++ rest,z,decoded,true⟩) := by
  simp only [Receiver.iteration,Bool.not_true,Bool.false_eq_true,if_false,
    rcvSz_peek c (five_le_toBson hdoc) hpre rest,Outcome.ok_bind,hpeek,if_true,Outcome.pure_eq]

/-- An iteration past the peek. -/
theorem iteration_read (hpeek : c.peeked doc.length ≠ 0) :
    Receiver.iteration c ⟨doc ++ rest,z,decoded,true⟩ = (do
      let got := recv (c.peeked doc.length) c.read (doc ++ rest)
      let cmdr ← rcv (some got) (c.peeked doc.length)
      let bson ← determined cmdr
      let j ← fromBson bson
      return ⟨(doc ++ rest).drop got.length,z,decoded ++ [j],true⟩) := by
  simp only [Receiver.iteration,Bool.not_true,Bool.false_eq_true,if_false,
    rcvSz_peek c (five_le_toBson hdoc) hpre rest,Outcome.ok_bind,if_neg hpeek,Outcome.pure_eq]

theorem iteration_whole (hfit : StringsFit j) (hpeek : c.peeked doc.length = doc.length)
    (hread : doc.length ≤ c.read) :
    Receiver.iteration c ⟨doc ++ rest,z,decoded,true⟩ =
      .ok ⟨rest,z,decoded ++ [signedForm j],true⟩ := by
  have h5 := five_le_toBson hdoc
  have hne : c.peeked doc.length ≠ 0 := by omega
  rw [iteration_read hdoc hpre hne,hpeek,recv_whole h5 hread]
  simp only [rcv,Nat.sub_self,uninit,List.replicate_zero,List.append_nil,determined_map_some,
    Outcome.ok_bind,fromBson_toBson hfit hdoc,Outcome.pure_eq,List.drop_left]

/-- Everything a returning iteration in front of a document can have done. -/
theorem iteration_cases {r : Receiver}
    (h : Receiver.iteration c ⟨doc ++ rest,z,decoded,true⟩ = .ok r) :
    c.peeked doc.length = 0 ∧ r = Receiver.timeout ⟨doc ++ rest,z,decoded,true⟩ ∨
      ∃ j', r.decoded = decoded ++ [j'] ∧ StringsFit j' ∧ (StringsFit j →
        c.peeked doc.length = doc.length ∧ doc.length ≤ c.read ∧
          r = ⟨rest,z,decoded ++ [signedForm j],true⟩) := by
  by_cases hpeek : c.peeked doc.length = 0
  · rw [iteration_zero hdoc hpre hpeek] at h
    cases h
    exact Or.inl ⟨hpeek,rfl⟩
  · right
    have h5 := five_le_toBson hdoc
    have hle : c.peeked doc.length ≤ doc.length := Nat.mod_le _ _
    rw [iteration_read hdoc hpre hpeek] at h
    generalize hsz : c.peeked doc.length = sz at *
    have hcount : max 1 (min c.read sz) ≤ doc.length := by omega
    have hgot : recv sz c.read (doc ++ rest) = doc.take (max 1 (min c.read sz)) := by
      rw [recv,List.take_append_of_le_length hcount]
    have hlen : (doc.take (max 1 (min c.read sz))).length = max 1 (min c.read sz) := by
      rw [List.length_take]
      omega
    rw [hgot] at h
    simp only [rcv,hlen,Outcome.ok_bind] at h
    by_cases hshort : max 1 (min c.read sz) < sz
    · rw [determined_short _ (by omega)] at h
      cases h
    · have hm : max 1 (min c.read sz) = sz := by omega
      rw [hm,Nat.sub_self,uninit,List.replicate_zero,List.append_nil,determined_map_some,
        Outcome.ok_bind] at h
      obtain ⟨j',hj',h⟩ := Outcome.bind_eq_ok.mp h
      cases h
      refine ⟨j',rfl,fromBson_fits hj',?_⟩
      intro hfit
      have hback := fromBson_toBson hfit hdoc
      have heq : sz = doc.length := by
        by_contra hne
        obtain ⟨f,hf⟩ := fromBson_take hback (show sz < doc.length by omega)
        rw [hf] at hj'
        cases hj'
      subst heq
      rw [List.take_length,hback] at hj'
      cases hj'
      refine ⟨rfl,by omega,?_⟩
      simp

end Document

/-! ## A whole run of the loop -/

theorem iteration_decoded {c : Cut} {r r' : Receiver} (h : r.iteration c = .ok r') :
    ∃ more, r'.decoded = r.decoded ++ more := by
  unfold Receiver.iteration at h
  by_cases hrun : r.running = true
  · simp only [hrun,Bool.not_true,Bool.false_eq_true,if_false] at h
    obtain ⟨size,hsize,h⟩ := Outcome.bind_eq_ok.mp h
    cases size with
    | none =>
      cases h
      exact ⟨[],by simp⟩
    | some sz =>
      by_cases hsz : sz = 0
      · simp only [hsz,if_true,Outcome.pure_eq,Except.ok.injEq] at h
        subst h
        refine ⟨[],?_⟩
        simp only [Receiver.timeout,List.append_nil]
        split_ifs <;> rfl
      · simp only [if_neg hsz] at h
        obtain ⟨cmdr,_,h⟩ := Outcome.bind_eq_ok.mp h
        obtain ⟨bson,_,h⟩ := Outcome.bind_eq_ok.mp h
        obtain ⟨j,_,h⟩ := Outcome.bind_eq_ok.mp h
        cases h
        exact ⟨[j],rfl⟩
  · simp only [hrun,Bool.not_false,if_true,Outcome.pure_eq,Except.ok.injEq] at h
    subst h
    exact ⟨[],by simp⟩

theorem run_decoded {n : ℕ} {cuts : Stream' Cut} {r r' : Receiver} (h : r.run n cuts = .ok r') :
    ∃ more, r'.decoded = r.decoded ++ more := by
  induction n generalizing cuts r with
  | zero =>
    cases h
    exact ⟨[],by simp⟩
  | succ n ih =>
    obtain ⟨r₁,h₁,h⟩ := Outcome.bind_eq_ok.mp h
    obtain ⟨a,ha⟩ := iteration_decoded h₁
    obtain ⟨b,hb⟩ := ih h
    exact ⟨a ++ b,by rw [hb,ha,List.append_assoc]⟩

theorem iteration_stopped {c : Cut} {r : Receiver} (h : r.running = false) :
    r.iteration c = .ok r := by
  simp [Receiver.iteration,h]

theorem iteration_eof (c : Cut) (z : ℕ) (decoded : List Json) :
    Receiver.iteration c ⟨[],z,decoded,true⟩ = .ok ⟨[],z,decoded,false⟩ := by
  simp [Receiver.iteration,recv_nil,rcvSz,ewouldblock]

/-- The documents `snd` makes of the values, each starting with its length. -/
def Sent : List Json → List Bytes → Prop :=
  List.Forall₂ (fun j doc => toBson j = .ok doc ∧ ofLE (doc.take 4) = doc.length)

/-- The loop comes to its end having decoded `js`. -/
def Decodes (cuts : Stream' Cut) (r : Receiver) (js : List Json) : Prop :=
  ∃ n r', r.run n cuts = .ok r' ∧ r'.running = false ∧ r'.decoded = js

theorem decodes_step {cuts : Stream' Cut} {r r' : Receiver} {js : List Json}
    (hstep : r.iteration cuts.head = .ok r') (h : Decodes cuts.tail r' js) : Decodes cuts r js := by
  obtain ⟨n,r'',hrun,hstop,hjs⟩ := h
  refine ⟨n + 1,r'',?_,hstop,hjs⟩
  rw [Receiver.run,hstep,Outcome.ok_bind,hrun]

theorem timeout_of_lt {stream : Bytes} {z : ℕ} {decoded : List Json} (hz : z + 1 < 5) :
    Receiver.timeout ⟨stream,z,decoded,true⟩ = ⟨stream,z + 1,decoded,true⟩ := by
  have h5 : ¬ z + 1 = 5 := by omega
  simp only [Receiver.timeout,if_neg h5]
  split_ifs <;> rfl

theorem decodes_of_framed {docs : List Bytes} {z : ℕ} {cuts : Stream' Cut} (h : Framed docs z cuts) :
    ∀ {js : List Json}, Sent js docs → (∀ j ∈ js, StringsFit j) → ∀ decoded,
      Decodes cuts ⟨docs.flatten,z,decoded,true⟩ (decoded ++ js.map signedForm) := by
  induction h with
  | @done z cuts =>
    intro js hs _ decoded
    cases hs
    exact ⟨1,⟨[],z,decoded,false⟩,by simp [Receiver.run,iteration_eof],rfl,by simp⟩
  | @zero doc docs z cuts hpeek hz _ ih =>
    intro js hs hfit decoded
    obtain ⟨j,js',⟨hdoc,hpre⟩,_,_⟩ := List.forall₂_cons_right_iff.mp hs
    have hstep : Receiver.iteration cuts.head ⟨doc ++ docs.flatten,z,decoded,true⟩ = _ :=
      iteration_zero hdoc hpre hpeek
    rw [timeout_of_lt hz] at hstep
    exact decodes_step hstep (ih hs hfit decoded)
  | @whole doc docs z cuts hpeek hread _ ih =>
    intro js hs hfit decoded
    obtain ⟨j,js',⟨hdoc,hpre⟩,hs',rfl⟩ := List.forall₂_cons_right_iff.mp hs
    have hstep : Receiver.iteration cuts.head ⟨doc ++ docs.flatten,z,decoded,true⟩ = _ :=
      iteration_whole hdoc hpre (hfit j List.mem_cons_self) hpeek hread
    have hrest := ih hs' (fun j' hj => hfit j' (List.mem_cons_of_mem _ hj)) (decoded ++ [signedForm j])
    rw [List.append_assoc] at hrest
    exact decodes_step hstep hrest

theorem timeout_stop (stream : Bytes) (decoded : List Json) {z : ℕ} (hz : z < 5) :
    z + 1 < 5 ∨ Receiver.timeout ⟨stream,z,decoded,true⟩ = ⟨stream,5,decoded,false⟩ := by
  by_cases h : z + 1 < 5
  · exact Or.inl h
  · obtain rfl : z = 4 := by omega
    exact Or.inr (by simp [Receiver.timeout])

theorem run_stopped {n : ℕ} {cuts : Stream' Cut} {r r' : Receiver} (hr : r.running = false)
    (h : r.run n cuts = .ok r') : r' = r := by
  induction n generalizing cuts with
  | zero =>
    cases h
    rfl
  | succ n ih =>
    rw [Receiver.run,iteration_stopped hr,Outcome.ok_bind] at h
    exact ih h

/-- The step of the converse: the first iteration fixes what the cuts did to the first
document, and what is decoded later cannot change it. -/
theorem framed_of_decodes {n : ℕ} : ∀ {docs : List Bytes} {js : List Json} {z : ℕ}
    {cuts : Stream' Cut} {decoded : List Json} {r : Receiver}, Sent js docs → z < 5 →
    Receiver.run n cuts ⟨docs.flatten,z,decoded,true⟩ = .ok r → r.running = false →
    r.decoded = decoded ++ js.map signedForm → Framed docs z cuts ∧ ∀ j ∈ js, StringsFit j := by
  induction n with
  | zero =>
    intro docs js z cuts decoded r _ _ hrun hstop _
    cases hrun
    cases hstop
  | succ n ih =>
    intro docs js z cuts decoded r hs hz hrun hstop hdec
    cases docs with
    | nil =>
      cases hs
      exact ⟨Framed.done,by simp⟩
    | cons doc docs =>
      obtain ⟨j,js,⟨hdoc,hpre⟩,hs',rfl⟩ := List.forall₂_cons_right_iff.mp hs
      obtain ⟨r₁,h₁,hrun⟩ := Outcome.bind_eq_ok.mp hrun
      rcases iteration_cases hdoc hpre h₁ with ⟨hpeek,rfl⟩ | ⟨j',hj',hfit',hread⟩
      · rcases timeout_stop (doc ++ docs.flatten) decoded hz with hlt | hend
        · rw [timeout_of_lt hlt] at hrun
          obtain ⟨hframed,hfit⟩ := ih hs hlt hrun hstop hdec
          exact ⟨Framed.zero hpeek hlt hframed,hfit⟩
        · rw [hend] at hrun
          rw [run_stopped rfl hrun] at hdec
          simp at hdec
      · obtain ⟨more,hmore⟩ := run_decoded hrun
        rw [hj',hdec] at hmore
        have hhead : signedForm j = j' := by
          simp only [List.append_assoc,List.map_cons,List.append_cancel_left_eq,List.singleton_append,
            List.cons.injEq] at hmore
          exact hmore.1
        have hfit : StringsFit j := stringsFit_signedForm.mp (hhead ▸ hfit')
        obtain ⟨hpeek,hlen,rfl⟩ := hread hfit
        obtain ⟨hframed,hrest⟩ := ih hs' hz hrun hstop (by rw [hdec]; simp)
        exact ⟨Framed.whole hpeek hlen hframed,List.forall_mem_cons.mpr ⟨hfit,hrest⟩⟩

theorem foldlM_snd {js : List Json} {docs : List Bytes} (hs : Sent js docs) (stream : Bytes) :
    js.foldlM snd stream = .ok (stream ++ docs.flatten) := by
  induction hs generalizing stream with
  | nil => simp
  | cons h _ ih =>
    simp only [List.foldlM_cons,snd,h.1,Outcome.ok_bind,Outcome.pure_eq,List.flatten_cons]
    rw [← List.append_assoc]
    exact ih _

/-- The loop decodes exactly what was sent when, and only when, no cut falls into a
document and every string of the documents can be read at all. -/
theorem receive_decodes_iff {js : List Json} {docs : List Bytes} {stream : Bytes}
    (hs : Sent js docs) (hsnd : js.foldlM snd [] = .ok stream) (cuts : Stream' Cut) :
    Decodes cuts (Receiver.start stream) (js.map signedForm) ↔
      Framed docs 0 cuts ∧ ∀ j ∈ js, StringsFit j := by
  rw [foldlM_snd hs,List.nil_append] at hsnd
  cases hsnd
  constructor
  · rintro ⟨n,r,hrun,hstop,hdec⟩
    exact framed_of_decodes hs (by omega) hrun hstop (by simpa using hdec)
  · rintro ⟨hframed,hfit⟩
    have h := decodes_of_framed hframed hs hfit []
    rwa [List.nil_append] at h

def chokeDoc : Bytes := [15,0,0,0,16,116,121,112,101,0,4,0,0,0,0]

/-- A Request for piece 3. -/
def requestDoc : Bytes :=
  [35,0,0,0,3,114,101,113,0,15,0,0,0,16,112,99,110,111,0,3,0,0,0,0,16,116,121,112,101,0,0,1,0,0,0]

theorem sent_choke_request :
    Sent [PktMsg.toJson { type := .Choke },PktMsg.toJson { type := .Request, req := ⟨3⟩ }]
      [chokeDoc,requestDoc] :=
  .cons ⟨by decide +kernel,rfl⟩ (.cons ⟨by decide +kernel,rfl⟩ .nil)

/-- Two packets. The first peek sees one byte of the length and the others two, and every
`recv` is complete. -/
theorem receive_decodes_two :
    Decodes (Stream'.cons ⟨1,15⟩ (Stream'.const ⟨2,64⟩)) (Receiver.start (chokeDoc ++ requestDoc))
      [signedForm (PktMsg.toJson { type := .Choke }),
        signedForm (PktMsg.toJson { type := .Request, req := ⟨3⟩ })] := by
  refine (receive_decodes_iff sent_choke_request (foldlM_snd sent_choke_request []) _).mpr ⟨?_,?_⟩
  · exact Framed.whole rfl (by decide) (Framed.whole rfl (by decide) Framed.done)
  · intro j hj
    rcases List.mem_pair.mp hj with rfl | rfl
    · exact PktMsg.toJson_fits nofun
    · exact PktMsg.toJson_fits nofun

/-- The first packet when `recv` returns its first 14 bytes. -/
theorem receive_choke_short : ¬ Decodes (Stream'.const ⟨4,14⟩) (Receiver.start chokeDoc)
    [signedForm (PktMsg.toJson { type := .Choke })] := by
  rintro ⟨n,r,hrun,hstop,_⟩
  cases n with
  | zero =>
    cases hrun
    cases hstop
  | succ n =>
    have hfault : (Receiver.start chokeDoc).iteration ⟨4,14⟩ = .error .indeterminate := rfl
    obtain ⟨r',hr',_⟩ := Outcome.bind_eq_ok.mp hrun
    have h := hfault.symm.trans hr'
    cases h

end BTRx

import BTRx.ObjStore.Contents

/-! # add_piece between its locks

The bitfield and the cache have a lock each, and `add_piece` takes them one after the other: other
threads come between its test, its write and its flip. What readers do to the lists of the cache
and to the offset is left open, since no read changes a byte of the file or a bit.
-/
namespace BTRx
open Memory ByteSet Transition

/-- Where a thread stands in `add_piece`. -/
inductive Adder
  | idle
  | tested (p : ℕ) (piece : List Cell)
  | written (p : ℕ) (piece : List Cell)

structure SharedStore (ι : Type) where
  ost : ObjStore
  adders : ι → Adder

/-- A call, its next section, or whatever a reader does. -/
inductive StoreAct (ι : Type)
  | add (c : ι) (p : ℕ) (piece : List Cell)
  | go (c : ι)
  | read (cmap : PosMap) (cvec : List ℕ) (heap : List (Option Access)) (off : ℕ)

/-- Why a section does not return: it is not the next one, or it ends the process. -/
inductive Blocked
  | disabled
  | fault (f : Fault)

/-- Steps with the states before them and with the value of a call that returns, newest first. -/
abbrev SharedHist (ι : Type) := List (SharedStore ι × StoreAct ι × Option ℕ)

namespace SharedStore
variable {ι : Type} [DecidableEq ι]

def exec (s : SharedStore ι) : StoreAct ι → Except Blocked (Option ℕ × SharedStore ι)
  | .add c p piece =>
    match s.adders c with
    | .idle => do
      if ← (s.ost.bfield.exists p).mapError .fault then return (some 0,s)
      return (none,{ s with adders := Function.update s.adders c (.tested p piece) })
    | _ => .error .disabled
  | .go c =>
    match s.adders c with
    | .idle => .error .disabled
    | .tested p piece => do
      let cache ← (s.ost.cache.put p piece).mapError .fault
      return (none,⟨{ s.ost with cache },Function.update s.adders c (.written p piece)⟩)
    | .written p _ => do
      let bfield ← (s.ost.bfield.flip p).mapError .fault
      return (some 1,⟨{ s.ost with bfield },Function.update s.adders c .idle⟩)
  | .read cmap cvec heap off =>
    .ok (none,{ s with ost := { s.ost with cache :=
      { s.ost.cache with cmap, cvec, heap, file := ⟨s.ost.cache.file.data,off⟩ } } })

/-! ## What a step can do -/

/-- The sections with everything they change. -/
inductive Section (s : SharedStore ι) : StoreAct ι → Option ℕ → SharedStore ι → Prop
  | refused {c : ι} {p : ℕ} {piece : List Cell} (hc : s.adders c = .idle)
      (held : bitAt s.ost.bfield.bfield p = true) : Section s (.add c p piece) (some 0) s
  | test {c : ι} {p : ℕ} {piece : List Cell} (hc : s.adders c = .idle) (hp : p < 8 * s.ost.bfield.bfield.length)
      (missing : bitAt s.ost.bfield.bfield p = false) : Section s (.add c p piece) none
        { s with adders := Function.update s.adders c (.tested p piece) }
  | write {c : ι} {p : ℕ} {piece : List Cell} {cache : Cache} (hc : s.adders c = .tested p piece)
      (hput : s.ost.cache.put p piece = .ok cache) : Section s (.go c) none
        ⟨{ s.ost with cache },Function.update s.adders c (.written p piece)⟩
  | flip {c : ι} {p : ℕ} {piece : List Cell} (hc : s.adders c = .written p piece)
      (hp : p < 8 * s.ost.bfield.bfield.length) : Section s (.go c) (some 1)
        ⟨{ s.ost with bfield := ⟨setAt s.ost.bfield.bfield p⟩ },Function.update s.adders c .idle⟩
  | read {cmap : PosMap} {cvec : List ℕ} {heap : List (Option Access)} {off : ℕ} :
      Section s (.read cmap cvec heap off) none { s with ost := { s.ost with cache :=
        { s.ost.cache with cmap, cvec, heap, file := ⟨s.ost.cache.file.data,off⟩ } } }

variable {s s' s₀ t : SharedStore ι} {a : StoreAct ι} {o : Option ℕ} {hist : SharedHist ι}

/-- The inversion of `exec`. -/
theorem exec_section (h : s.exec a = .ok (o,s')) : Section s a o s' := by
  cases a with
  | read cmap cvec heap off =>
    cases h
    exact .read
  | add c p piece =>
    simp only [exec] at h
    cases hc : s.adders c with
    | tested _ _ | written _ _ =>
      simp only [hc] at h
      cases h
    | idle =>
      simp only [hc] at h
      obtain ⟨b,hb,h⟩ := Outcome.bind_eq_ok.mp h
      obtain ⟨q,hq,hlt,rfl⟩ := Bfield.exists_eq_ok.mp (Outcome.mapError_eq_ok.mp hb)
      obtain rfl : p = q := by exact_mod_cast hq
      split at h
      · rename_i hbit
        cases h
        exact .refused hc hbit
      · rename_i hbit
        cases h
        exact .test hc hlt (Bool.eq_false_of_not_eq_true hbit)
  | go c =>
    simp only [exec] at h
    cases hc : s.adders c with
    | idle =>
      simp only [hc] at h
      cases h
    | tested p piece =>
      simp only [hc] at h
      obtain ⟨cache,hput,h⟩ := Outcome.bind_eq_ok.mp h
      cases h
      exact .write hc (Outcome.mapError_eq_ok.mp hput)
    | written p piece =>
      simp only [hc] at h
      obtain ⟨bfield,hflip,h⟩ := Outcome.bind_eq_ok.mp h
      cases h
      replace hflip := Outcome.mapError_eq_ok.mp hflip
      rw [Bfield.flip_natCast] at hflip
      by_cases hp : p < 8 * s.ost.bfield.bfield.length
      · rw [if_pos hp] at hflip
        cases hflip
        exact .flip hc hp
      · rw [if_neg hp] at hflip
        cases hflip

/-- The sections of `add_piece` one after the other are the call. -/
theorem addPiece_staged {c : ι} {p r : ℕ} {piece : List Cell} {ost' : ObjStore} (hc : s.adders c = .idle)
    (h : s.ost.addPiece p piece = .ok (r,ost')) : ∃ hist : SharedHist ι,
      Run (ExecStep exec) s hist { s with ost := ost' } ∧ hist.filterMap (·.2.2) = [r] := by
  obtain ⟨b,hb,h⟩ := Outcome.bind_eq_ok.mp h
  cases b with
  | true =>
    cases h
    have hstep : ExecStep exec s (.add c p piece,some 0) s := by
      simp only [ExecStep,exec,hc,hb]
      rfl
    exact ⟨_,Run.refl.tail hstep,rfl⟩
  | false =>
    obtain ⟨cache,hput,h⟩ := Outcome.bind_eq_ok.mp h
    obtain ⟨bfield,hflip,h⟩ := Outcome.bind_eq_ok.mp h
    cases h
    have htest : ExecStep exec s (.add c p piece,none)
        { s with adders := Function.update s.adders c (.tested p piece) } := by
      simp only [ExecStep,exec,hc,hb]
      rfl
    have hwrite : ExecStep exec { s with adders := Function.update s.adders c (.tested p piece) } (.go c,none)
        ⟨{ s.ost with cache },Function.update s.adders c (.written p piece)⟩ := by
      simp only [ExecStep,exec,Function.update_self,hput,Function.update_idem]
      rfl
    have hlast : ExecStep exec ⟨{ s.ost with cache },Function.update s.adders c (.written p piece)⟩ (.go c,some 1)
        ⟨{ s.ost with cache, bfield },s.adders⟩ := by
      simp only [ExecStep,exec,Function.update_self,hflip,Function.update_idem]
      rw [← hc,Function.update_eq_self]
      rfl
    exact ⟨_,((Run.refl.tail htest).tail hwrite).tail hlast,rfl⟩

/-- A `get_piece` is what the readers may do. -/
theorem getPiece_read {p r : ℕ} {buf : List Cell} {ost' : ObjStore} (h : s.ost.getPiece p = .ok (r,buf,ost')) :
    ∃ cmap cvec heap off, s.exec (.read cmap cvec heap off) = .ok (none,{ s with ost := ost' }) := by
  obtain ⟨b,hb,h⟩ := Outcome.bind_eq_ok.mp h
  cases b with
  | false =>
    cases h
    exact ⟨s.ost.cache.cmap,s.ost.cache.cvec,s.ost.cache.heap,s.ost.cache.file.off,rfl⟩
  | true =>
    obtain ⟨⟨out,cache⟩,hget,h⟩ := Outcome.bind_eq_ok.mp h
    cases h
    obtain ⟨⟨hpcsz,hnpcs,hmax⟩,hdata⟩ := Cache.get_frame hget
    refine ⟨cache.cmap,cache.cvec,cache.heap,cache.file.off,?_⟩
    simp only [exec,← hdata,← hpcsz,← hnpcs,← hmax]

/-! ## What lies in the file -/

/-- A tested piece may have been laid down by another thread in the meantime. -/
structure Laid (s : SharedStore ι) : Prop where
  settled : s.ost.Settled
  tested : ∀ c p piece, s.adders c = .tested p piece → p < 8 * s.ost.bfield.bfield.length ∧
    (bitAt s.ost.bfield.bfield p = true → (p + 1) * s.ost.pcsz ≤ s.ost.cache.file.data.length)
  written : ∀ c p piece, s.adders c = .written p piece → p < 8 * s.ost.bfield.bfield.length ∧
    (p + 1) * s.ost.pcsz ≤ s.ost.cache.file.data.length

/-- Held, or about to be. -/
def Present (s : SharedStore ι) (p : ℕ) : Prop :=
  bitAt s.ost.bfield.bfield p = true ∨ ∃ c piece, s.adders c = .written p piece

theorem update_cases {c d : ι} {f : ι → Adder} {x y : Adder} (h : Function.update f c x d = y) :
    d = c ∧ x = y ∨ d ≠ c ∧ f d = y := by
  rw [Function.update_apply] at h
  split at h
  · exact Or.inl ⟨‹_›,h⟩
  · exact Or.inr ⟨‹_›,h⟩

omit [DecidableEq ι] in
/-- The write of a section: it makes the file no shorter and changes the place of its own piece only,
of all that are present. -/
theorem Laid.write (h : s.Laid) {c : ι} {p : ℕ} {piece : List Cell} {cache : Cache}
    (hc : s.adders c = .tested p piece) (hput : s.ost.cache.put p piece = .ok cache) :
    cache.pcsz = s.ost.pcsz ∧ s.ost.cache.file.data.length ≤ cache.file.data.length ∧
      (p + 1) * s.ost.pcsz ≤ cache.file.data.length ∧
      ∀ q, q = p ∨ s.Present q → cache.file.region (q * s.ost.pcsz) s.ost.pcsz =
        if q = p then window s.ost.pcsz piece else s.ost.cache.file.region (q * s.ost.pcsz) s.ost.pcsz := by
  have hpc := h.settled.pcsz
  obtain ⟨hp,hheld⟩ := h.tested c p piece hc
  have hget := h.settled.getPos hp
  rw [← hpc] at hget
  obtain ⟨hshape,hlen,hregion⟩ := Cache.put_region (by rw [hpc]; exact h.settled.pcsz_pos) hget hput
  rw [hpc] at hlen hregion
  refine ⟨hshape.1.trans hpc,by omega,by omega,fun q hq => hregion q fun hlt => ?_⟩
  rcases hq with rfl | hq | ⟨d,old,hd⟩
  · exact absurd hlt (lt_irrefl q)
  · cases hbit : bitAt s.ost.bfield.bfield p with
    | false => exact h.settled.inside q p hq hbit hlt hp
    | true => exact (Nat.mul_le_mul_right _ (by omega)).trans (hheld hbit)
  · exact (h.written d q old hd).2

theorem Laid.step (h : s.Laid) (hx : ExecStep exec s (a,o) s') : s'.Laid := by
  cases exec_section hx with
  | refused hc held => exact h
  | read => exact ⟨⟨h.settled.pcsz,h.settled.pcsz_pos,h.settled.room,h.settled.inside⟩,h.tested,h.written⟩
  | test hc hp missing =>
    refine ⟨h.settled,fun d q old hd => ?_,fun d q old hd => ?_⟩
    · rcases update_cases hd with ⟨_,hd⟩ | ⟨_,hd⟩
      · cases hd
        exact ⟨hp,fun held => absurd (missing.symm.trans held) Bool.false_ne_true⟩
      · exact h.tested d q old hd
    · rcases update_cases hd with ⟨_,hd⟩ | ⟨_,hd⟩
      · cases hd
      · exact h.written d q old hd
  | write hc hput =>
    obtain ⟨hpc,hgrow,hself,_⟩ := h.write hc hput
    have hset := h.settled
    refine ⟨⟨hpc,hset.pcsz_pos,hset.room,fun a b ha hb hab hle => (hset.inside a b ha hb hab hle).trans hgrow⟩,
      fun d q old hd => ?_,fun d q old hd => ?_⟩
    · rcases update_cases hd with ⟨_,hd⟩ | ⟨_,hd⟩
      · cases hd
      · exact ⟨(h.tested d q old hd).1,fun held => ((h.tested d q old hd).2 held).trans hgrow⟩
    · rcases update_cases hd with ⟨_,hd⟩ | ⟨_,hd⟩
      · cases hd
        exact ⟨(h.tested _ _ _ hc).1,hself⟩
      · exact ⟨(h.written d q old hd).1,(h.written d q old hd).2.trans hgrow⟩
  | @flip c p piece hc hp =>
    have hset := h.settled
    have hin := (h.written c p piece hc).2
    refine ⟨⟨hset.pcsz,hset.pcsz_pos,?_,fun a b ha hb hab hle => ?_⟩,fun d q old hd => ?_,fun d q old hd => ?_⟩
    · rw [setAt_length]
      exact hset.room
    · rw [setAt_length] at hle
      rw [bitAt_setAt hp,Bool.or_eq_true,decide_eq_true_eq] at ha
      rw [bitAt_setAt hp,Bool.or_eq_false_iff] at hb
      rcases ha with ha | rfl
      · exact hset.inside a b ha hb.1 hab hle
      · exact hin
    · rw [setAt_length]
      rcases update_cases hd with ⟨_,hd⟩ | ⟨_,hd⟩
      · cases hd
      · refine ⟨(h.tested d q old hd).1,fun held => ?_⟩
        rw [bitAt_setAt hp,Bool.or_eq_true,decide_eq_true_eq] at held
        rcases held with held | rfl
        · exact (h.tested d q old hd).2 held
        · exact hin
    · rw [setAt_length]
      rcases update_cases hd with ⟨_,hd⟩ | ⟨_,hd⟩
      · cases hd
      · exact h.written d q old hd

/-! ## Every held piece is whole -/

/-- The thread that writes `p` in a step, with the cells it writes. -/
def putOf (p : ℕ) : SharedStore ι × StoreAct ι × Option ℕ → Option (ι × List Cell)
  | (s,.go c,_) =>
    match s.adders c with
    | .tested q piece => if q = p then some (c,window s.ost.pcsz piece) else none
    | _ => none
  | _ => none

/-- The writes of a piece, newest first. -/
def puts (p : ℕ) (hist : SharedHist ι) : List (ι × List Cell) := hist.filterMap (putOf p)

/-- The history with what a thread is at: a piece it has written is present, and what is present has
the cells of its newest write. -/
structure Traced (s₀ : SharedStore ι) (hist : SharedHist ι) (s : SharedStore ι) : Prop where
  laid : s.Laid
  pcsz : s.ost.pcsz = s₀.ost.pcsz
  newest : ∀ p, s.Present p → some (s.ost.cache.file.region (p * s.ost.pcsz) s.ost.pcsz) =
    ((puts p hist).head?.map Prod.snd).or (s₀.ost.contents p)
  once : ∀ p, ((puts p hist).map Prod.fst).Nodup
  putter : ∀ p, ∀ c ∈ (puts p hist).map Prod.fst,
    bitAt s.ost.bfield.bfield p = true ∨ ∃ piece, s.adders c = .written p piece
  called : ∀ c p piece, s.adders c = .tested p piece →
    c ∉ (puts p hist).map Prod.fst ∧ ∃ e ∈ hist, e.2.1 = .add c p piece
  origin : ∀ p, ∀ w ∈ puts p hist, ∃ e ∈ hist, ∃ piece, e.2.1 = .add w.1 p piece ∧ w.2 = window s₀.ost.pcsz piece

omit [DecidableEq ι] in
theorem puts_cons_none {e : SharedStore ι × StoreAct ι × Option ℕ} {p : ℕ} (h : putOf p e = none) :
    puts p (e :: hist) = puts p hist := List.filterMap_cons_none h

omit [DecidableEq ι] in
theorem puts_write {c : ι} {p : ℕ} {piece : List Cell} (hc : s.adders c = .tested p piece) (q : ℕ) :
    puts q ((s,.go c,o) :: hist) =
      if p = q then (c,window s.ost.pcsz piece) :: puts q hist else puts q hist := by
  simp only [puts,List.filterMap_cons,putOf,hc]
  split
  · rename_i hnone
    split at hnone
    · cases hnone
    · rename_i hne
      rw [if_neg hne]
  · rename_i w hsome
    split at hsome
    · rename_i he
      cases hsome
      rw [if_pos he]
    · cases hsome

/-- A step that writes nothing. -/
theorem Traced.quiet (h : Traced s₀ hist s) (hx : ExecStep exec s (a,o) s') (hput : ∀ p, putOf p (s,a,o) = none)
    (hpc : s'.ost.pcsz = s.ost.pcsz) (hdata : s'.ost.cache.file.data = s.ost.cache.file.data)
    (hpresent : ∀ p, s'.Present p → s.Present p)
    (hputter : ∀ p c, (bitAt s.ost.bfield.bfield p = true ∨ ∃ piece, s.adders c = .written p piece) →
      bitAt s'.ost.bfield.bfield p = true ∨ ∃ piece, s'.adders c = .written p piece)
    (hcalled : ∀ c p piece, s'.adders c = .tested p piece → s.adders c = .tested p piece ∨
      s.adders c = .idle ∧ bitAt s.ost.bfield.bfield p = false ∧ a = .add c p piece) :
    Traced s₀ ((s,a,o) :: hist) s' := by
  refine ⟨h.laid.step hx,hpc.trans h.pcsz,fun p hp => ?_,fun p => ?_,fun p c hc => ?_,fun c p piece hc => ?_,
    fun p w hw => ?_⟩
  · rw [puts_cons_none (hput p),File.region,hdata,hpc]
    exact h.newest p (hpresent p hp)
  · rw [puts_cons_none (hput p)]
    exact h.once p
  · rw [puts_cons_none (hput p)] at hc
    exact hputter p c (h.putter p c hc)
  · rw [puts_cons_none (hput p)]
    rcases hcalled c p piece hc with hc | ⟨hc,missing,rfl⟩
    · obtain ⟨hnew,e,he,ha⟩ := h.called c p piece hc
      exact ⟨hnew,e,List.mem_cons_of_mem _ he,ha⟩
    · refine ⟨fun hmem => ?_,_,List.mem_cons_self,rfl⟩
      rcases h.putter p c hmem with held | ⟨old,hold⟩
      · exact absurd (missing.symm.trans held) Bool.false_ne_true
      · cases hc.symm.trans hold
  · rw [puts_cons_none (hput p)] at hw
    obtain ⟨e,he,hadd⟩ := h.origin p w hw
    exact ⟨e,List.mem_cons_of_mem _ he,hadd⟩

theorem Traced.step (h : Traced s₀ hist s) (hx : ExecStep exec s (a,o) s') : Traced s₀ ((s,a,o) :: hist) s' := by
  cases exec_section hx with
  | refused hc held =>
    exact h.quiet hx (fun _ => rfl) rfl rfl (fun _ => id) (fun _ _ => id) fun _ _ _ => Or.inl
  | read => exact h.quiet hx (fun _ => rfl) rfl rfl (fun _ => id) (fun _ _ => id) fun _ _ _ => Or.inl
  | @test c p piece hc hp missing =>
    refine h.quiet hx (fun _ => rfl) rfl rfl (fun q hq => ?_) (fun q d hd => ?_) fun d q old hd => ?_
    · refine hq.imp_right fun ⟨d,old,hd⟩ => ⟨d,old,?_⟩
      rcases update_cases hd with ⟨_,hd⟩ | ⟨_,hd⟩
      · cases hd
      · exact hd
    · refine hd.imp_right fun ⟨old,hd⟩ => ⟨old,?_⟩
      have hne : d ≠ c := by
        rintro rfl
        cases hc.symm.trans hd
      exact (Function.update_of_ne hne _ _).trans hd
    · rcases update_cases hd with ⟨rfl,he⟩ | ⟨_,he⟩
      · obtain ⟨rfl,rfl⟩ := Adder.tested.inj he
        exact Or.inr ⟨hc,missing,rfl⟩
      · exact Or.inl he
  | @flip c p piece hc hp =>
    have hset : ∀ q, bitAt (setAt s.ost.bfield.bfield p) q = true ↔ bitAt s.ost.bfield.bfield q = true ∨ p = q := by
      intro q
      rw [bitAt_setAt hp,Bool.or_eq_true,decide_eq_true_eq]
    refine h.quiet hx (fun q => ?_) rfl rfl (fun q hq => ?_) (fun q d hd => ?_) fun d q old hd => ?_
    · simp only [putOf,hc]
    · rcases hq with hq | ⟨d,old,hd⟩
      · rcases (hset q).mp hq with hq | rfl
        · exact Or.inl hq
        · exact Or.inr ⟨c,piece,hc⟩
      · rcases update_cases hd with ⟨_,hd⟩ | ⟨_,hd⟩
        · cases hd
        · exact Or.inr ⟨d,old,hd⟩
    · rcases hd with hd | ⟨old,hd⟩
      · exact Or.inl ((hset q).mpr (Or.inl hd))
      · by_cases hdc : d = c
        · subst hdc
          cases hc.symm.trans hd
          exact Or.inl ((hset p).mpr (Or.inr rfl))
        · exact Or.inr ⟨old,(Function.update_of_ne hdc _ _).trans hd⟩
    · rcases update_cases hd with ⟨_,hd⟩ | ⟨_,hd⟩
      · cases hd
      · exact Or.inl hd
  | @write c p piece cache hc hput =>
    obtain ⟨_,_,_,hregion⟩ := h.laid.write hc hput
    obtain ⟨hfresh,call⟩ := h.called c p piece hc
    refine ⟨h.laid.step hx,h.pcsz,fun q hq => ?_,fun q => ?_,fun q d hd => ?_,fun d q old hd => ?_,fun q w hw => ?_⟩
    · have hq' : q = p ∨ s.Present q := by
        rcases hq with hq | ⟨d,old,hd⟩
        · exact Or.inr (Or.inl hq)
        · rcases update_cases hd with ⟨_,hd⟩ | ⟨_,hd⟩
          · cases hd
            exact Or.inl rfl
          · exact Or.inr (Or.inr ⟨d,old,hd⟩)
      simp only [hregion q hq',puts_write hc]
      by_cases hqp : q = p
      · subst hqp
        simp
      · rw [if_neg hqp,if_neg (Ne.symm hqp)]
        exact h.newest q (hq'.resolve_left hqp)
    · rw [puts_write hc]
      split
      · subst q
        exact List.nodup_cons.mpr ⟨hfresh,h.once p⟩
      · exact h.once q
    · have hd' : q = p ∧ d = c ∨ d ∈ (puts q hist).map Prod.fst := by
        rw [puts_write hc] at hd
        split at hd
        · subst q
          exact (List.mem_cons.mp hd).imp_left fun hdc => ⟨rfl,hdc⟩
        · exact Or.inr hd
      rcases hd' with ⟨rfl,rfl⟩ | hd'
      · exact Or.inr ⟨piece,Function.update_self ..⟩
      · refine (h.putter q d hd').imp_right fun ⟨old,hold⟩ => ⟨old,?_⟩
        have hne : d ≠ c := by
          rintro rfl
          cases hc.symm.trans hold
        exact (Function.update_of_ne hne _ _).trans hold
    · rcases update_cases hd with ⟨_,hd⟩ | ⟨hdc,hd⟩
      · cases hd
      · obtain ⟨hnew,e,he,ha⟩ := h.called d q old hd
        refine ⟨?_,e,List.mem_cons_of_mem _ he,ha⟩
        rw [puts_write hc]
        split
        · rw [List.map_cons,List.mem_cons,not_or]
          exact ⟨hdc,hnew⟩
        · exact hnew
    · have hw' : q = p ∧ w = (c,window s.ost.pcsz piece) ∨ w ∈ puts q hist := by
        rw [puts_write hc] at hw
        split at hw
        · subst q
          exact (List.mem_cons.mp hw).imp_left fun hwc => ⟨rfl,hwc⟩
        · exact Or.inr hw
      rcases hw' with ⟨rfl,rfl⟩ | hw'
      · obtain ⟨e,he,ha⟩ := call
        exact ⟨e,List.mem_cons_of_mem _ he,piece,ha,by rw [h.pcsz]⟩
      · obtain ⟨e,he,hadd⟩ := h.origin q w hw'
        exact ⟨e,List.mem_cons_of_mem _ he,hadd⟩

/-- However the sections of any number of threads interleave: a held piece has all its cells from one
buffer, the last that was written for it, and no thread writes a piece twice. -/
theorem held_piece_whole (h₀ : s₀.ost.Settled) (hidle : ∀ c, s₀.adders c = .idle)
    (run : Run (ExecStep exec) s₀ hist t) {p : ℕ} (held : bitAt t.ost.bfield.bfield p = true) :
    t.ost.contents p = ((puts p hist).head?.map Prod.snd).or (s₀.ost.contents p) ∧
      ((puts p hist).map Prod.fst).Nodup ∧
      ∀ w ∈ puts p hist, ∃ e ∈ hist, ∃ piece, e.2.1 = .add w.1 p piece ∧ w.2 = window s₀.ost.pcsz piece := by
  have hstart : Traced s₀ [] s₀ := by
    refine ⟨⟨h₀,fun c p piece hc => ?_,fun c p piece hc => ?_⟩,rfl,fun p hp => ?_,fun p => List.nodup_nil,
      fun p c hc => absurd hc List.not_mem_nil,fun c p piece hc => ?_,fun p w hw => absurd hw List.not_mem_nil⟩
    · cases (hidle c).symm.trans hc
    · cases (hidle c).symm.trans hc
    · rcases hp with hp | ⟨c,piece,hc⟩
      · exact (if_pos hp).symm
      · cases (hidle c).symm.trans hc
    · cases (hidle c).symm.trans hc
  have htraced := run.always (P := Traced s₀) hstart fun hist s l s' h hx => h.step hx
  have hnew := htraced.newest p (Or.inl held)
  exact ⟨(if_pos held).trans hnew,htraced.once p,htraced.origin p⟩

/-- A file of two pieces with two threads. -/
def twoAdders : SharedStore Bool :=
  ⟨ObjStore.bfieldInit ⟨4,2,2,⟨∅,[],[],⟨[],0⟩,2,2,cachesz / 2⟩,⟨[]⟩⟩ false [],fun _ => .idle⟩

theorem twoAdders_settled : twoAdders.ost.Settled :=
  ObjStore.settled_init (by decide) (by norm_num) (ObjStore.new_eq_ok.mpr ⟨by decide,rfl⟩) false nofun

/-- Both threads test before either of them writes: both calls return 1 and the later write stays. -/
theorem held_piece_whole_two : ∃ hist t, Run (ExecStep exec) twoAdders hist t ∧
    hist.filterMap (·.2.2) = [1,1] ∧ t.ost.contents 0 = some [some 3,some 4] := by
  obtain ⟨hist,t,run,h⟩ := @exists_run _ _ _ _ exec twoAdders
    [.add false 0 [some 1,some 2],.add true 0 [some 3,some 4],.go false,.go true,.go true,.go false]
    (fun hist t => hist.filterMap (·.2.2) == [1,1] && bitAt t.ost.bfield.bfield 0 &&
      puts 0 hist == [(true,[some 3,some 4]),(false,[some 1,some 2])])
    (by decide +kernel)
  simp only [Bool.and_eq_true,beq_iff_eq] at h
  obtain ⟨⟨hret,held⟩,hputs⟩ := h
  refine ⟨hist,t,run,hret,?_⟩
  rw [(held_piece_whole twoAdders_settled (fun _ => rfl) run held).1,hputs]
  rfl

/-! ## Calls that do not meet

Where no two threads are at the same piece, `add_piece` is atomic at its flip.
-/

/-- The piece a thread is at. -/
def pcnoOf : Adder → Option ℕ
  | .idle => none
  | .tested p _ | .written p _ => some p

/-- A call starts only while no other one is at its piece. -/
def Exclusive : SharedStore ι × StoreAct ι × Option ℕ → Prop
  | (s,.add _ p _,_) => ∀ c, pcnoOf (s.adders c) ≠ some p
  | _ => True

instance [Fintype ι] : DecidablePred (Exclusive (ι := ι))
  | (s,.add _ p _,_) => inferInstanceAs (Decidable (∀ c, pcnoOf (s.adders c) ≠ some p))
  | (_,.go _,_) => isTrue trivial
  | (_,.read ..,_) => isTrue trivial

/-- The piece of a call that returns 1. -/
def added : SharedStore ι × StoreAct ι × Option ℕ → Option (ℕ × List Cell)
  | (s,.go c,some _) =>
    match s.adders c with
    | .written p piece => some (p,window s.ost.pcsz piece)
    | _ => none
  | _ => none

structure Separate (s : SharedStore ι) : Prop where
  laid : s.Laid
  alone : ∀ c d p, pcnoOf (s.adders c) = some p → pcnoOf (s.adders d) = some p → c = d
  missing : ∀ c p, pcnoOf (s.adders c) = some p → bitAt s.ost.bfield.bfield p = false
  wrote : ∀ c p piece, s.adders c = .written p piece →
    s.ost.cache.file.region (p * s.ost.pcsz) s.ost.pcsz = window s.ost.pcsz piece

theorem pcnoOf_cases {c d : ι} {f : ι → Adder} {x : Adder} {p : ℕ}
    (h : pcnoOf (Function.update f c x d) = some p) :
    d = c ∧ pcnoOf x = some p ∨ d ≠ c ∧ pcnoOf (f d) = some p := by
  rcases update_cases (c := c) (d := d) (f := f) (x := x) rfl with ⟨hd,hx⟩ | ⟨hd,hx⟩
  · exact Or.inl ⟨hd,by rw [hx]; exact h⟩
  · exact Or.inr ⟨hd,by rw [hx]; exact h⟩

/-- A thread that goes on with its piece, or starts with one that nobody is at, stays the only one. -/
theorem Separate.alone_update (h : s.Separate) {c : ι} {x : Adder}
    (hx : ∀ p, pcnoOf x = some p → pcnoOf (s.adders c) = some p ∨ ∀ d, pcnoOf (s.adders d) ≠ some p) :
    ∀ d e p, pcnoOf (Function.update s.adders c x d) = some p →
      pcnoOf (Function.update s.adders c x e) = some p → d = e := by
  intro d e p hd he
  have hother : ∀ y, pcnoOf x = some p → pcnoOf (s.adders y) = some p → y = c := by
    intro y hp hy
    rcases hx p hp with hc | hnone
    · exact h.alone y c p hy hc
    · exact absurd hy (hnone y)
  rcases pcnoOf_cases hd with ⟨hdc,hd'⟩ | ⟨hdc,hd'⟩ <;> rcases pcnoOf_cases he with ⟨hec,he'⟩ | ⟨hec,he'⟩
  · exact hdc.trans hec.symm
  · exact absurd (hother e hd' he') hec
  · exact absurd (hother d he' hd') hdc
  · exact h.alone d e p hd' he'

/-- A section of a call that meets no other one leaves the contents as they are, unless it returns 1:
then it writes an empty cell. -/
theorem Separate.step (h : s.Separate) (hx : ExecStep exec s (a,o) s') (hexcl : Exclusive (s,a,o)) :
    s'.Separate ∧ s'.ost.contents = (added (s,a,o)).elim s.ost.contents (WriteOnce.write s.ost.contents) := by
  have hlaid := h.laid.step hx
  cases exec_section hx with
  | refused hc held => exact ⟨h,rfl⟩
  | read => exact ⟨⟨hlaid,h.alone,h.missing,h.wrote⟩,rfl⟩
  | @test c p piece hc hp missing =>
    have hnew : ∀ q, pcnoOf (.tested p piece) = some q → q = p := by
      rintro q hq
      exact (Option.some.inj hq).symm
    refine ⟨⟨hlaid,h.alone_update fun q hq => Or.inr fun d => ?_,fun d q hd => ?_,fun d q old hd => ?_⟩,rfl⟩
    · rw [hnew q hq]
      exact hexcl d
    · rcases pcnoOf_cases hd with ⟨_,hq⟩ | ⟨_,hd⟩
      · rw [hnew q hq]
        exact missing
      · exact h.missing d q hd
    · rcases update_cases hd with ⟨_,hd⟩ | ⟨_,hd⟩
      · cases hd
      · exact h.wrote d q old hd
  | @write c p piece cache hc hput =>
    have hat : pcnoOf (s.adders c) = some p := by rw [hc]; rfl
    have hsame : ∀ q, pcnoOf (.written p piece) = some q → q = p := by
      rintro q hq
      exact (Option.some.inj hq).symm
    obtain ⟨_,_,_,hregion⟩ := h.laid.write hc hput
    refine ⟨⟨hlaid,h.alone_update fun q hq => Or.inl ?_,fun d q hd => ?_,fun d q old hd => ?_⟩,?_⟩
    · rw [hsame q hq]
      exact hat
    · rcases pcnoOf_cases hd with ⟨_,hq⟩ | ⟨_,hd⟩
      · rw [hsame q hq]
        exact h.missing c p hat
      · exact h.missing d q hd
    · rcases update_cases hd with ⟨_,hd⟩ | ⟨hdc,hd⟩
      · cases hd
        exact (hregion p (Or.inl rfl)).trans (if_pos rfl)
      · have hq : pcnoOf (s.adders d) = some q := by rw [hd]; rfl
        have hqp : q ≠ p := by
          rintro rfl
          exact hdc (h.alone d c q hq hat)
        refine ((hregion q (Or.inr (Or.inr ⟨d,old,hd⟩))).trans (if_neg hqp)).trans ?_
        exact h.wrote d q old hd
    · have hnone : added (s,.go c,none) = none := rfl
      rw [hnone,Option.elim_none]
      funext q
      simp only [ObjStore.contents]
      cases held : bitAt s.ost.bfield.bfield q with
      | false => rfl
      | true =>
        have hqp : q ≠ p := by
          rintro rfl
          exact absurd ((h.missing c q hat).symm.trans held) Bool.false_ne_true
        rw [if_pos rfl,if_pos rfl,hregion q (Or.inr (Or.inl held)),if_neg hqp]
  | @flip c p piece hc hp =>
    have hat : pcnoOf (s.adders c) = some p := by rw [hc]; rfl
    have hmissing := h.missing c p hat
    refine ⟨⟨hlaid,h.alone_update (fun q hq => by cases hq),fun d q hd => ?_,fun d q old hd => ?_⟩,?_⟩
    · rcases pcnoOf_cases hd with ⟨_,hq⟩ | ⟨hdc,hd⟩
      · cases hq
      · have hpq : p ≠ q := by
          rintro rfl
          exact hdc (h.alone d c p hd hat)
        rw [bitAt_setAt hp,h.missing d q hd,decide_eq_false hpq]
        rfl
    · rcases update_cases hd with ⟨_,hd⟩ | ⟨_,hd⟩
      · cases hd
      · exact h.wrote d q old hd
    · have hsome : added (s,.go c,some 1) = some (p,window s.ost.pcsz piece) := by simp only [added,hc]
      rw [hsome,Option.elim_some]
      funext q
      rw [WriteOnce.write_apply,WriteOnce.offer]
      simp only [ObjStore.contents,bitAt_setAt hp]
      by_cases hpq : p = q
      · subst hpq
        simp [hmissing,h.wrote c p piece hc]
      · rw [decide_eq_false hpq,Bool.or_false,if_neg hpq,Option.or_none]

/-- Where no two threads are at the same piece, the sections of all the calls give the store that the
calls give one after the other, in the order in which they return 1, and each piece is added once. -/
theorem shared_contents (h₀ : s₀.ost.Settled) (hidle : ∀ c, s₀.adders c = .idle)
    (run : Run (ExecStep exec) s₀ hist t) (hexcl : ∀ e ∈ hist, Exclusive e) :
    t.ost.contents = WriteOnce.writeAll s₀.ost.contents (hist.filterMap added).reverse ∧
      ((hist.filterMap added).map Prod.fst).Nodup := by
  have hnone : ∀ c p, pcnoOf (s₀.adders c) ≠ some p := by
    intro c p hc
    rw [hidle c] at hc
    cases hc
  have hstart : s₀.Separate := by
    refine ⟨⟨h₀,fun c p piece hc => ?_,fun c p piece hc => ?_⟩,fun c d p hc _ => absurd hc (hnone c p),
      fun c p hc => absurd hc (hnone c p),fun c p piece hc => ?_⟩ <;> cases (hidle c).symm.trans hc
  have hstep : ∀ (s : SharedStore ι) (l : StoreAct ι × Option ℕ) u, s.Separate → Exclusive (s,l) →
      ExecStep exec s l u → u.Separate ∧
        u.ost.contents = (added (s,l)).elim s.ost.contents (WriteOnce.write s.ost.contents) :=
    fun s l u hs he hx => hs.step hx he
  refine ⟨(WriteOnce.of_run run _ _ hstart hexcl hstep).2,
    WriteOnce.nodup_of_run run _ _ hstart hexcl hstep fun s l u w hs he hx hw => ?_⟩
  obtain ⟨a,o⟩ := l
  cases exec_section hx with
  | refused hc held => cases hw
  | read => cases hw
  | test hc hp missing => cases hw
  | write hc hput => cases hw
  | @flip c p piece hc hp =>
    simp only [added,hc] at hw
    cases hw
    exact if_neg (by rw [hs.missing c p (by rw [hc]; rfl)]; exact Bool.false_ne_true)

/-- Two threads at two pieces. -/
theorem shared_contents_two : ∃ hist t, Run (ExecStep exec) twoAdders hist t ∧
    hist.filterMap added = [(0,[some 1,some 2]),(1,[some 3,some 4])] ∧
    t.ost.contents 0 = some [some 1,some 2] ∧ t.ost.contents 1 = some [some 3,some 4] := by
  obtain ⟨hist,t,run,h⟩ := @exists_run _ _ _ _ exec twoAdders
    [.add false 0 [some 1,some 2],.add true 1 [some 3,some 4],.go false,.go true,.go true,.go false]
    (fun hist _ => hist.filterMap added == [(0,[some 1,some 2]),(1,[some 3,some 4])] &&
      decide (∀ e ∈ hist, Exclusive e))
    (by decide +kernel)
  simp only [Bool.and_eq_true,beq_iff_eq,decide_eq_true_eq] at h
  have hall := (shared_contents twoAdders_settled (fun _ => rfl) run h.2).1
  rw [h.1] at hall
  exact ⟨hist,t,run,h.1,by rw [hall]; rfl,by rw [hall]; rfl⟩

end SharedStore
end BTRx

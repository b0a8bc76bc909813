import UbsComm.Lib.Links

/-!
# Chains of fragments, joined

What dequeueing does to the links of the buffers that it returns, and when the
result is one chain. A received buffer comes with the fragment that its data
is found to end in, if there is one. It is linked behind the last such
fragment of the buffers before it, and the chain is ended at its own
(`joinAll`). A destination of a pull is linked behind the first fragment of
the entry before it (`linkAll`).

The links from the first buffer lead through all fragments in order exactly if
every received buffer but the last one ends in its last fragment, the last one
in its last fragment or nowhere, and an entry with a destination behind it has
one fragment (`JoinCond.seg`, `joinCond_of_seg`).
-/

namespace Umq

open Links Function List Option Prod

/-! ## Buffers of several fragments -/

/-- The buffers that start with `firsts` have the fragments `frags`, all of
them different. -/
structure Fragmented (next : ℕ → ℕ) (frags : ℕ → List ℕ) (firsts : List ℕ) : Prop where
  linked : ∀ b ∈ firsts, Seg next b (frags b) 0
  ne_nil : ∀ b ∈ firsts, frags b ≠ []
  nodup : (firsts.flatMap frags).Nodup

namespace Fragmented

variable {next next' : ℕ → ℕ} {frags : ℕ → List ℕ} {b c x : ℕ} {firsts firsts' : List ℕ}

section

variable (hf : Fragmented next frags firsts)
include hf

theorem sublist (hs : firsts'.Sublist firsts) : Fragmented next frags firsts' where
  linked := fun c hc => hf.linked c (hs.subset hc)
  ne_nil := fun c hc => hf.ne_nil c (hs.subset hc)
  nodup := by
    obtain ⟨hall, hpair⟩ := nodup_flatMap.mp hf.nodup
    exact nodup_flatMap.mpr ⟨fun c hc => hall c (hs.subset hc), hpair.sublist hs⟩

omit hf in
theorem tail (hf : Fragmented next frags (b :: firsts)) : Fragmented next frags firsts :=
  hf.sublist (sublist_cons_self b firsts)

theorem frags_nodup (hb : b ∈ firsts) : (frags b).Nodup := (nodup_flatMap.mp hf.nodup).1 b hb

theorem eq_of_mem (hb : b ∈ firsts) (hc : c ∈ firsts)
    (hxb : x ∈ frags b) (hxc : x ∈ frags c) : b = c := by
  by_contra hne
  have hsymm : Std.Symm (onFun List.Disjoint frags) :=  ⟨fun _ _ h _ hc hb => h hb hc⟩
  have hdisj : List.Disjoint (frags b) (frags c) := (nodup_flatMap.mp hf.nodup).2.forall hb hc hne
  exact hdisj hxb hxc

theorem first_mem (hc : c ∈ firsts) : c ∈ frags c := by
  obtain ⟨x, l, hx⟩ := exists_cons_of_ne_nil (hf.ne_nil c hc)
  have hseg := hf.linked c hc
  rw [hx] at hseg ⊢
  rw [hseg.1]
  exact mem_cons_self

theorem nodup_firsts : firsts.Nodup := by
  refine List.Pairwise.imp_of_mem ?_ (nodup_flatMap.mp hf.nodup).2
  rintro b c hb - hdisj rfl
  exact hdisj (hf.first_mem hb) (hf.first_mem hb)

theorem congr
    (heq : ∀ x ∈ firsts.flatMap frags, next' x = next x) : Fragmented next' frags firsts where
  __ := hf
  linked c hc := (hf.linked c hc).congr fun x hx => heq x (mem_flatMap.mpr ⟨c, hc, hx⟩)

end

theorem notMem_flatMap (hf : Fragmented next frags (b :: firsts)) (hx : x ∈ frags b) :
    x ∉ firsts.flatMap frags := by
  intro hmem
  obtain ⟨c, hc, hxc⟩ := mem_flatMap.mp hmem
  have heq := hf.eq_of_mem mem_cons_self (mem_cons_of_mem b hc) hx hxc
  exact (nodup_cons.mp hf.nodup_firsts).1 (heq ▸ hc)

end Fragmented

/-! ## What the calls do to the links -/

/-- What a merge does to the links: the buffer `b` is linked behind
`previousLast`, and the chain is ended at the fragment that its data ends in,
if there is one. -/
def joinNext (next : ℕ → ℕ) (previousLast b : ℕ) (stop : Option ℕ) : ℕ → ℕ :=
  let next' := if previousLast ≠ 0 then update next previousLast b else next
  match stop with
  | some p => update next' p 0
  | none => next'

/-- The links after a batch of merges. -/
def joinAll : List (ℕ × Option ℕ) → (ℕ → ℕ) → ℕ → (ℕ → ℕ)
  | [], next, _ => next
  | (b, stop) :: items, next, previousLast =>
    joinAll items (joinNext next previousLast b stop) (stop.getD previousLast)

/-- A merge changes the links of the fragment before and of the one where the
data ends. -/
theorem joinNext_apply (next : ℕ → ℕ) (previousLast b : ℕ) (stop : Option ℕ) (x : ℕ) :
    joinNext next previousLast b stop x = if x ∈ stop then 0
      else if x = previousLast ∧ previousLast ≠ 0 then b else next x := by
  unfold joinNext
  by_cases hprev : previousLast = 0
  · cases stop <;> simp [hprev, update_apply, eq_comm]
  · cases stop <;> simp [hprev, update_apply, eq_comm]

theorem joinNext_of_ne {next : ℕ → ℕ} {previousLast b x : ℕ} {stop : Option ℕ}
    (hx : x ≠ previousLast) (hstop : ∀ p ∈ stop, x ≠ p) :
    joinNext next previousLast b stop x = next x := by
  rw [joinNext_apply, if_neg fun h => hstop x h rfl, if_neg fun h => hx h.1]

/-! ## When the joined buffers are one chain -/

section Joined

variable {next : ℕ → ℕ} {frags : ℕ → List ℕ} {its : List (ℕ × Option ℕ)} {previousLast x b p : ℕ}
  {stop : Option ℕ} {ds : List ℕ} {firsts : List ℕ} {next' : ℕ → ℕ} {last : Option ℕ}
  {dsts : List ℕ}

/-- The fragments where the data of the buffers ends are fragments of them. -/
def StopsInside (frags : ℕ → List ℕ) (its : List (ℕ × Option ℕ)) : Prop :=
  ∀ it ∈ its, ∀ p ∈ it.2, p ∈ frags it.1

theorem StopsInside.mem_flatMap (h : StopsInside frags its) {it : ℕ × Option ℕ} (hit : it ∈ its)
    (hp : p ∈ it.2) : p ∈ (its.map Prod.fst).flatMap frags :=
  List.mem_flatMap.mpr ⟨it.1, mem_map_of_mem hit, h it hit p hp⟩

theorem joinAll_of_ne (hx : x ≠ previousLast) (hstops : ∀ it ∈ its, ∀ p ∈ it.2, x ≠ p) :
    joinAll its next previousLast x = next x := by
  induction its generalizing next previousLast with
  | nil => rfl
  | cons it its ih =>
    obtain ⟨b, stop⟩ := it
    obtain ⟨hself, hrest⟩ := forall_mem_cons.mp hstops
    have hx' : x ≠ stop.getD previousLast := by
      cases stop with
      | none => exact hx
      | some p => exact hself p rfl
    exact (ih hx' hrest).trans (joinNext_of_ne hx hself)

/-- The fragment that comes before a batch is linked to some buffer of it, or
its link stays. -/
theorem joinAll_previousLast (hstops : ∀ it ∈ its, ∀ p ∈ it.2, previousLast ≠ p) :
    joinAll its next previousLast previousLast = next previousLast
      ∨ ∃ it ∈ its, joinAll its next previousLast previousLast = it.1 := by
  induction its generalizing next with
  | nil => exact .inl rfl
  | cons it its ih =>
    obtain ⟨b, stop⟩ := it
    obtain ⟨hself, hrest⟩ := forall_mem_cons.mp hstops
    have hjoin : joinNext next previousLast b stop previousLast = b
        ∨ joinNext next previousLast b stop previousLast = next previousLast := by
      rw [joinNext_apply, if_neg fun h => hself _ h rfl]
      exact ite_eq_or_eq ..
    have hall : joinAll its (joinNext next previousLast b stop) (stop.getD previousLast)
      previousLast
        = joinNext next previousLast b stop previousLast
        ∨ ∃ it ∈ its, joinAll its (joinNext next previousLast b stop) (stop.getD previousLast)
          previousLast = it.1 := by
      cases stop with
      | none => exact ih hrest
      | some p => exact .inl (joinAll_of_ne (hself p rfl) hrest)
    obtain hall | ⟨it, hit, hall⟩ := hall
    · obtain hjoin | hjoin := hjoin
      · exact .inr ⟨(b, stop), mem_cons_self, hall.trans hjoin⟩
      · exact .inl (hall.trans hjoin)
    · exact .inr ⟨it, mem_cons_of_mem _ hit, hall⟩

/-- One buffer, whose data ends in its last fragment or nowhere. -/
theorem joinNext_seg (hseg : Seg next b (frags b) 0) (hnodup : (frags b).Nodup)
    (hprev : previousLast ∉ frags b) (hstop : stop = (frags b).getLast? ∨ stop = none) :
    Seg (joinNext next previousLast b stop) b (frags b) 0 := by
  have hne : ∀ x ∈ frags b, x ≠ previousLast := fun x hx heq => hprev (heq ▸ hx)
  obtain hstop | rfl := hstop
  · obtain hnil | ⟨l, p, hl⟩ := eq_nil_or_concat' (frags b)
    · rw [hnil] at hseg ⊢
      exact hseg
    rw [hl] at hseg hnodup hstop hne ⊢
    have hlast : stop = some p := hstop.trans getLast?_concat
    obtain ⟨hinit, hp, -⟩ := seg_concat.mp hseg
    refine seg_concat.mpr ⟨hinit.congr fun x hx => ?_, hp, ?_⟩
    · refine joinNext_of_ne (hne x (mem_append_left _ hx)) fun q hq => ?_
      obtain rfl : p = q := some.inj (hlast.symm.trans hq)
      exact (nodup_append.mp hnodup).2.2 x hx p (mem_singleton_self p)
    · rw [joinNext_apply, if_pos (mem_def.mpr hlast)]
  · exact hseg.congr fun x hx => joinNext_of_ne (hne x hx) nofun

theorem joinNext_previousLast (hne : previousLast ≠ 0) (hstop : ∀ p ∈ stop, previousLast ≠ p) :
    joinNext next previousLast b stop previousLast = b := by
  rw [joinNext_apply, if_neg fun h => hstop _ h rfl, if_pos ⟨rfl, hne⟩]

/-- **A batch is joined to one chain** if the data of each buffer ends in its
last fragment, and that of the last buffer there or nowhere. -/
theorem joinAll_seg (hf : Fragmented next frags (b :: its.map Prod.fst))
    (hstops : StopsInside frags ((b, stop) :: its))
    (hprev : previousLast ∉ (b :: its.map Prod.fst).flatMap frags)
    (hends : ∀ it ∈ ((b, stop) :: its).dropLast, it.2 = (frags it.1).getLast?)
    (hlast : ∀ it ∈ ((b, stop) :: its).getLast?, it.2 = (frags it.1).getLast? ∨ it.2 = none) :
    Seg (joinAll ((b, stop) :: its) next previousLast) b ((b :: its.map Prod.fst).flatMap frags) 0
      ∧ (previousLast ≠ 0 → joinAll ((b, stop) :: its) next previousLast previousLast = b) := by
  induction its generalizing next previousLast b stop with
  | nil =>
    have hmem : previousLast ∉ frags b := by
      rw [map_nil, flatMap_singleton] at hprev
      exact hprev
    have hseg := joinNext_seg (hf.linked b mem_cons_self)
      (hf.frags_nodup mem_cons_self) hmem (hlast _ rfl)
    refine ⟨?_, fun hne => joinNext_previousLast hne fun p hp heq => ?_⟩
    · rw [map_nil, flatMap_singleton]
      exact hseg
    · exact hmem (heq ▸ hstops _ mem_cons_self p hp)
  | cons it its ih =>
    obtain ⟨c, stop'⟩ := it
    have hself : stop = (frags b).getLast? := hends _ mem_cons_self
    obtain ⟨l, p, hl⟩ := (eq_nil_or_concat' (frags b)).resolve_left (hf.ne_nil b mem_cons_self)
    have hp : p ∈ frags b := by simp [hl]
    obtain rfl : stop = some p := by rw [hself, hl, getLast?_concat]
    rw [flatMap_cons, mem_append, not_or] at hprev
    have hjoin : Seg (joinNext next previousLast b (some p)) b (frags b) 0 :=
      joinNext_seg (hf.linked b mem_cons_self) (hf.frags_nodup mem_cons_self) hprev.1 (.inl hself)
    have hstops' : StopsInside frags ((c, stop') :: its) := fun it hit =>
      hstops it (mem_cons_of_mem _ hit)
    have hp' : p ∉ (c :: its.map fst).flatMap frags := hf.notMem_flatMap hp
    have hkeep : ∀ x ∈ (c :: its.map fst).flatMap frags,
        joinNext next previousLast b (some p) x = next x := by
      intro x hx
      refine joinNext_of_ne (fun heq => hprev.2 (heq ▸ hx)) fun q hq heq => ?_
      cases hq
      exact hp' (heq ▸ hx)
    obtain ⟨hrest, hfirst⟩ := ih (hf.tail.congr hkeep) hstops' hp'
      (fun it hit => hends it (mem_cons_of_mem _ hit))
      fun it hit => hlast it (by rwa [getLast?_cons_cons])
    have hfirst := hfirst (hjoin.ne_zero hp)
    -- The fragments before the last one keep their links.
    have houter : ∀ x, x ≠ p → x ∉ (c :: its.map fst).flatMap frags →
        joinAll ((c, stop') :: its) (joinNext next previousLast b (some p)) p x
          = joinNext next previousLast b (some p) x := by
      intro x hxp hx
      refine joinAll_of_ne hxp fun it hit q hq heq => hx ?_
      exact heq ▸ hstops'.mem_flatMap hit hq
    refine ⟨?_, fun hne => ?_⟩
    · rw [flatMap_cons]
      refine seg_append.mpr ⟨c, ?_, hrest⟩
      have hnodup := hf.frags_nodup mem_cons_self
      rw [hl] at hjoin hnodup ⊢
      obtain ⟨hseg, hpne, -⟩ := seg_concat.mp hjoin
      refine seg_concat.mpr ⟨hseg.congr (fun x hx => ?_), hpne, hfirst⟩
      refine houter x (fun heq => ?_) (hf.notMem_flatMap ?_)
      · exact (nodup_append.mp hnodup).2.2 x hx p (mem_singleton_self p) heq
      · rw [hl]
        exact mem_append_left _ hx
    · have hprevp : previousLast ≠ p := fun heq => hprev.1 (heq ▸ hp)
      refine (houter _ hprevp hprev.2).trans (joinNext_previousLast hne fun q hq => ?_)
      cases hq
      exact hprevp

/-- `previous_last` after a batch. -/
def lastAfter (its : List (ℕ × Option ℕ)) (previousLast : ℕ) : ℕ :=
  its.foldl (fun q it => it.2.getD q) previousLast

theorem joinAll_append (its its' : List (ℕ × Option ℕ)) (next : ℕ → ℕ) (previousLast : ℕ) :
    joinAll (its ++ its') next previousLast
      = joinAll its' (joinAll its next previousLast) (lastAfter its previousLast) := by
  induction its generalizing next previousLast with
  | nil => rfl
  | cons it its ih => exact ih _ _

/-- The fragment that the data of a buffer ends in is linked to a later buffer
or to none. -/
theorem joinAll_stop {its' : List (ℕ × Option ℕ)} (hstops : ∀ it ∈ its', ∀ q ∈ it.2, p ≠ q) :
    joinAll (its ++ (b, some p) :: its') next 0 p = 0
      ∨ ∃ it ∈ its', joinAll (its ++ (b, some p) :: its') next 0 p = it.1 := by
  rw [joinAll_append]
  have hzero : joinNext (joinAll its next 0) (lastAfter its 0) b (some p) p = 0 := update_self _ _ _
  exact (joinAll_previousLast hstops).imp (fun h => h.trans hzero) id

/-! ## The destinations behind them -/

/-- The links after the destinations of pulls have been appended, `last` being
the last entry before them. -/
def linkAll : List ℕ → (ℕ → ℕ) → Option ℕ → (ℕ → ℕ)
  | [], next, _ => next
  | d :: ds, next, none => linkAll ds next (some d)
  | d :: ds, next, some f => linkAll ds (update next f d) (some d)

theorem linkAll_cons (d : ℕ) (ds : List ℕ) (next : ℕ → ℕ) (last : Option ℕ) :
    linkAll (d :: ds) next last = linkAll ds (linkAll [d] next last) (some d) := by
  cases last <;> rfl

theorem linkAll_of_ne (hlast : ∀ f ∈ last, x ≠ f) (hx : x ∉ ds) :
    linkAll ds next last x = next x := by
  induction ds generalizing next last with
  | nil => rfl
  | cons d ds ih =>
    rw [mem_cons, not_or] at hx
    have hd : ∀ f ∈ some d, x ≠ f := by simpa using hx.1
    cases last with
    | none => exact ih hd hx.2
    | some f => exact (ih hd hx.2).trans (update_of_ne (hlast f rfl) _ _)

theorem linkAll_last {d f : ℕ} (hf : f ∉ d :: ds) : linkAll (d :: ds) next (some f) f = d := by
  rw [mem_cons, not_or] at hf
  exact (linkAll_of_ne (by simpa using hf.1) hf.2).trans (update_self _ _ _)

theorem linkAll_next {ds' : List ℕ} {d d' : ℕ}
    (hnodup : (ds ++ d :: d' :: ds').Nodup) : linkAll (ds ++ d :: d' :: ds') next last d = d' := by
  induction ds generalizing next last with
  | nil =>
    have hd := (nodup_cons.mp hnodup).1
    cases last with
    | none | some f => exact linkAll_last hd
  | cons e ds ih =>
    have hrest := (nodup_cons.mp hnodup).2
    cases last with
    | none | some f => exact ih hrest

theorem Fragmented.eq_singleton (hf : Fragmented next frags firsts)
    (hb : b ∈ firsts) (hlen : (frags b).length = 1) : frags b = [b] := by
  obtain ⟨y, hy⟩ := length_eq_one_iff.mp hlen
  have hmem := hf.first_mem hb
  rw [hy, mem_singleton] at hmem
  rw [hy, hmem]

/-- **Destinations of one fragment**, the last one apart, are joined behind a
chain. -/
theorem linkAll_seg {f : ℕ} {l : List ℕ} (hseg : Seg next p (l ++ [f]) 0)
    (hf : Fragmented next frags ds) (hnodup : (l ++ [f] ++ ds.flatMap frags).Nodup)
    (hone : ∀ d ∈ ds.dropLast, (frags d).length = 1) :
    Seg (linkAll ds next (some f)) p (l ++ [f] ++ ds.flatMap frags) 0 := by
  induction ds generalizing next l f with
  | nil =>
    rw [flatMap_nil, append_nil]
    exact hseg
  | cons d ds ih =>
    obtain ⟨hchain, -, hdisj⟩ := nodup_append.mp hnodup
    have hfl : f ∉ l := fun hfl => (nodup_append.mp hchain).2.2 f hfl f (mem_singleton_self f) rfl
    have hfd : ∀ x ∈ (d :: ds).flatMap frags, update next f d x = next x := by
      intro x hx
      have hne : x ≠ f := fun heq => hdisj f (by simp) x hx heq.symm
      exact update_of_ne hne _ _
    have hup := hseg.update_last hfl d
    have hf' : Fragmented (update next f d) frags (d :: ds) := hf.congr hfd
    have hd := hf'.linked d mem_cons_self
    cases ds with
    | nil =>
      rw [flatMap_singleton]
      exact seg_append.mpr ⟨d, hup, hd⟩
    | cons d' ds =>
      have hsingle := hf.eq_singleton mem_cons_self (hone d mem_cons_self)
      rw [flatMap_cons, hsingle, ← append_assoc] at hnodup ⊢
      rw [hsingle] at hd
      refine ih (seg_append.mpr ⟨d, hup, hd⟩) hf'.tail hnodup fun e he => hone e ?_
      exact mem_cons_of_mem d he

/-! ## The condition on the links -/

/-- The condition, in terms of where the data of the buffers ends. -/
structure JoinCond (frags : ℕ → List ℕ) (its : List (ℕ × Option ℕ)) (dsts : List ℕ) : Prop where
  rx : ∀ it ∈ its.dropLast, it.2 = (frags it.1).getLast?
  rx_last : ∀ it ∈ its.getLast?, dsts = [] → it.2 = (frags it.1).getLast? ∨ it.2 = none
  rx_pull : ∀ it ∈ its.getLast?, dsts ≠ [] → (frags it.1).length = 1
  pull : ∀ d ∈ dsts.dropLast, (frags d).length = 1

/-- The links after a call. -/
def callNext (its : List (ℕ × Option ℕ)) (dsts : List ℕ) (next : ℕ → ℕ) : ℕ → ℕ :=
  linkAll dsts (joinAll its next 0) (its.getLast?.map Prod.fst)

theorem zero_notMem (firsts : List ℕ) (hf : Fragmented next frags firsts) :
    0 ∉ firsts.flatMap frags := by
  intro hmem
  obtain ⟨b, hb, hz⟩ := mem_flatMap.mp hmem
  exact (hf.linked b hb).ne_zero hz rfl

theorem JoinCond.seg (hc : JoinCond frags its dsts)
    (hf : Fragmented next frags (its.map Prod.fst ++ dsts)) (hstops : StopsInside frags its) :
    Seg (callNext its dsts next) ((its.map Prod.fst ++ dsts).headD 0)
      ((its.map Prod.fst ++ dsts).flatMap frags) 0 := by
  have hrx := hf.sublist (sublist_append_left (its.map fst) dsts)
  have hpull := hf.sublist (sublist_append_right (its.map fst) dsts)
  cases its with
  | nil =>
    cases dsts with
    | nil => rfl
    | cons d ds =>
      have hd := hpull.linked d mem_cons_self
      cases ds with
      | nil =>
        show Seg next d ([d].flatMap frags) 0
        rw [flatMap_singleton]
        exact hd
      | cons d' ds =>
        have hsingle := hpull.eq_singleton mem_cons_self (hc.pull d mem_cons_self)
        show Seg (linkAll (d' :: ds) next (some d)) d ((d :: d' :: ds).flatMap frags) 0
        have hnodup := hpull.nodup
        rw [flatMap_cons, hsingle] at hnodup ⊢
        rw [hsingle] at hd
        exact linkAll_seg (l := []) hd hpull.tail hnodup
          fun e he => hc.pull e (mem_cons_of_mem d he)
  | cons it its =>
    obtain ⟨b, stop⟩ := it
    obtain ⟨its', last, hconcat⟩ :=
      (eq_nil_or_concat' ((b, stop) :: its)).resolve_left (cons_ne_nil _ _)
    have hlast : ((b, stop) :: its).getLast? = some last := by rw [hconcat, getLast?_concat]
    have hmem : last ∈ (b, stop) :: its := mem_of_getLast? hlast
    have hsingle : dsts ≠ [] → frags last.1 = [last.1] := fun hne =>
      hrx.eq_singleton (mem_map_of_mem hmem) (hc.rx_pull last hlast hne)
    have hends : ∀ it ∈ ((b, stop) :: its).getLast?,
        it.2 = (frags it.1).getLast? ∨ it.2 = none := by
      intro it hit
      by_cases hd : dsts = []
      · exact hc.rx_last it hit hd
      · obtain rfl : last = it := some.inj (hlast.symm.trans hit)
        cases hs : last.2 with
        | none => exact .inr rfl
        | some p =>
          have hp := hstops last hmem p hs
          rw [hsingle hd] at hp ⊢
          rw [mem_singleton.mp hp]
          exact .inl rfl
    have hjoin := (joinAll_seg hrx hstops (zero_notMem _ hrx) hc.rx hends).1
    cases dsts with
    | nil =>
      rw [append_nil]
      exact hjoin
    | cons d ds =>
      have hsingle := hsingle (cons_ne_nil d ds)
      have hflat : (((b, stop) :: its).map fst).flatMap frags
          = (its'.map fst).flatMap frags ++ [last.1] := by
        rw [hconcat, map_append, flatMap_append, map_singleton, flatMap_singleton, hsingle]
      have hother : ∀ x ∈ (d :: ds).flatMap frags,
          joinAll ((b, stop) :: its) next 0 x = next x := by
        intro x hx
        have hdisj := (nodup_append.mp (flatMap_append ▸ hf.nodup)).2.2
        refine joinAll_of_ne (fun heq => zero_notMem _ hpull (heq ▸ hx)) ?_
        intro it hit p hp heq
        exact hdisj p (hstops.mem_flatMap hit hp) x hx heq.symm
      have hnodup := hf.nodup
      rw [flatMap_append, hflat] at hnodup ⊢
      have hjoin : Seg (joinAll ((b, stop) :: its) next 0) b
          ((its'.map fst).flatMap frags ++ [last.1]) 0 := hflat ▸ hjoin
      rw [callNext, hlast]
      exact linkAll_seg hjoin (hpull.congr hother) hnodup hc.pull

theorem exists_append_of_mem_dropLast {α : Type*} {l : List α} {a : α} (h : a ∈ l.dropLast) :
    ∃ s b t, l = s ++ a :: b :: t := by
  obtain rfl | ⟨l', last, rfl⟩ := eq_nil_or_concat' l
  · exact nomatch h
  rw [dropLast_concat] at h
  obtain ⟨s, t, rfl⟩ := append_of_mem h
  cases t with
  | nil => exact ⟨s, last, [], append_assoc _ _ _⟩
  | cons b t => exact ⟨s, b, t ++ [last], append_assoc _ _ _⟩

/-- The part of a chain that is one of the buffers. -/
theorem Fragmented.seg_of_mem {firsts firsts' : List ℕ}
    (hf : Fragmented next frags (firsts ++ b :: firsts'))
    (hseg : Seg next' p ((firsts ++ b :: firsts').flatMap frags) 0) :
    ∃ q, Seg next' b (frags b) q ∧ Seg next' q (firsts'.flatMap frags) 0 := by
  have hb : b ∈ firsts ++ b :: firsts' := by simp
  rw [flatMap_append] at hseg
  obtain ⟨p', -, hseg⟩ := seg_append.mp hseg
  obtain ⟨q, hself, hrest⟩ := seg_append.mp hseg
  refine ⟨q, ?_, hrest⟩
  obtain ⟨y, l, hl⟩ := exists_cons_of_ne_nil (hf.ne_nil b hb)
  have hlinked := hf.linked b hb
  rw [hl] at hself hlinked ⊢
  exact ⟨hlinked.1, hself.2⟩

section Necessary

variable {s t : List (ℕ × Option ℕ)} {dsts : List ℕ} {b q : ℕ} {stop : Option ℕ}

/-- A fragment of a buffer that is not the last one received keeps the link
that the merges gave it. -/
theorem callNext_eq (hf : Fragmented next frags ((s ++ (b, stop) :: t).map Prod.fst ++ dsts))
    (ht : t ≠ [] ∨ dsts = []) (hx : x ∈ frags b) :
    callNext (s ++ (b, stop) :: t) dsts next x = joinAll (s ++ (b, stop) :: t) next 0 x := by
  obtain ht | rfl := ht
  · have hb : b ∈ (s ++ (b, stop) :: t).map fst ++ dsts := by simp
    have hnodup := hf.nodup_firsts
    rw [map_append, map_cons, append_assoc, cons_append, nodup_middle] at hnodup
    have hother : ∀ c ∈ t.map fst ++ dsts, x ≠ c := by
      rintro c hc rfl
      have hc' : x ∈ (s ++ (b, stop) :: t).map fst ++ dsts := by
        rw [map_append, append_assoc]
        exact mem_append_right _ (mem_cons_of_mem _ hc)
      obtain rfl := hf.eq_of_mem hb hc' hx (hf.first_mem hc')
      exact (nodup_cons.mp hnodup).1 (mem_append_right _ hc)
    refine linkAll_of_ne (fun f hlast => ?_) fun hd => ?_
    · rw [mem_def, getLast?_append_cons, getLast?_cons_of_ne_nil ht, map_eq_some_iff] at hlast
      obtain ⟨it, hit, rfl⟩ := hlast
      exact hother _ (mem_append_left _ (mem_map_of_mem (mem_of_getLast? hit)))
    · exact hother x (mem_append_right _ hd) rfl
  · rfl

theorem Fragmented.item_eq (hf : Fragmented next frags (its.map Prod.fst ++ dsts))
    {it it' : ℕ × Option ℕ} (hit : it ∈ its) (hit' : it' ∈ its) {x : ℕ} (hx : x ∈ frags it.1)
    (hx' : x ∈ frags it'.1) : it = it' := by
  have hrx := hf.sublist (sublist_append_left (its.map fst) dsts)
  have heq := hrx.eq_of_mem (mem_map_of_mem hit) (mem_map_of_mem hit') hx hx'
  exact inj_on_of_nodup_map hrx.nodup_firsts hit hit' heq

/-- **A buffer cut off before its last fragment** is not whole in the chain. -/
theorem getLast?_of_seg {p : ℕ}
    (hf : Fragmented next frags ((s ++ (b, some p) :: t).map Prod.fst ++ dsts))
    (hstops : StopsInside frags (s ++ (b, some p) :: t)) (ht : t ≠ [] ∨ dsts = [])
    (hseg : Seg (callNext (s ++ (b, some p) :: t) dsts next) b (frags b) q) :
    some p = (frags b).getLast? := by
  have hself : (b, some p) ∈ s ++ (b, some p) :: t := by simp
  have hlater : ∀ it ∈ t, it ∈ s ++ (b, some p) :: t := fun it hit =>
    mem_append_right _ (mem_cons_of_mem _ hit)
  have hp : p ∈ frags b := hstops _ hself p rfl
  have hnodup := (hf.sublist (sublist_append_left _ dsts)).nodup_firsts
  rw [map_append, map_cons, nodup_middle] at hnodup
  have hne : ∀ it ∈ t, ∀ x ∈ frags it.1, x ∉ frags b := by
    intro it hit x hx hxb
    obtain rfl := hf.item_eq (hlater it hit) hself hx hxb
    exact (nodup_cons.mp hnodup).1 (mem_append_right _ (mem_map_of_mem hit))
  by_contra hlast
  have hmem := hseg.next_mem hp fun heq => hlast heq.symm
  rw [callNext_eq hf ht hp] at hmem
  obtain hzero | ⟨it, hit, hfirst⟩ := joinAll_stop
    fun it hit r hr heq => hne it hit r (hstops it (hlater it hit) r hr) (heq ▸ hp)
  · rw [hzero] at hmem
    exact hseg.ne_zero hmem rfl
  · rw [hfirst] at hmem
    refine hne it hit it.1 (hf.first_mem ?_) hmem
    exact mem_append_left _ (mem_map_of_mem (hlater it hit))

/-- **A buffer whose data ends nowhere** has nothing behind it. -/
theorem end_eq_zero (hf : Fragmented next frags ((s ++ (b, none) :: t).map Prod.fst ++ dsts))
    (hstops : StopsInside frags (s ++ (b, none) :: t)) (ht : t ≠ [] ∨ dsts = [])
    (hseg : Seg (callNext (s ++ (b, none) :: t) dsts next) b (frags b) q) : q = 0 := by
  have hself : (b, none) ∈ s ++ (b, none) :: t := by simp
  have hlinked : Seg next b (frags b) 0 := hf.linked b (by simp)
  refine (hseg.congr fun x hx => ?_).end_unique hlinked
  rw [callNext_eq hf ht hx]
  refine (joinAll_of_ne (hseg.ne_zero hx) fun it hit p hp heq => ?_).symm
  obtain rfl := hf.item_eq hit hself (heq ▸ hstops it hit p hp) hx
  exact nomatch hp

theorem Fragmented.getLast?_ne (hf : Fragmented next frags firsts) {c : ℕ}
    (hc : c ∈ firsts) (hlen : (frags c).length ≠ 1) : (frags c).getLast? ≠ some c := by
  intro hlast
  have hnodup := hf.frags_nodup hc
  have hlinked := hf.linked c hc
  cases hl : frags c with
  | nil => exact hf.ne_nil c hc hl
  | cons y l =>
    rw [hl] at hlast hlen hnodup hlinked
    obtain rfl : c = y := hlinked.1
    cases l with
    | nil => exact hlen rfl
    | cons z l => exact (nodup_cons.mp hnodup).1 (mem_of_getLast? hlast)

/-- An entry whose first fragment is linked to another entry has one
fragment. -/
theorem Fragmented.length_eq_one (hf : Fragmented next frags firsts) {c d : ℕ}
    (hc : c ∈ firsts) (hd : d ∈ firsts) (hne : d ≠ c)
    (hseg : Seg next' c (frags c) q) (hnext : next' c = d) : (frags c).length = 1 := by
  by_contra hlen
  have hmem := hseg.next_mem (hf.first_mem hc) (hf.getLast?_ne hc hlen)
  rw [hnext] at hmem
  exact hne (hf.eq_of_mem hd hc (hf.first_mem hd) hmem)

theorem joinCond_of_seg (hf : Fragmented next frags (its.map Prod.fst ++ dsts))
    (hstops : StopsInside frags its) {p : ℕ}
    (hseg : Seg (callNext its dsts next) p ((its.map Prod.fst ++ dsts).flatMap frags) 0) :
    JoinCond frags its dsts where
  rx := by
    intro it hit
    obtain ⟨s, it', t, rfl⟩ := exists_append_of_mem_dropLast hit
    obtain ⟨b, stop⟩ := it
    have hsplit : (s ++ (b, stop) :: it' :: t).map fst ++ dsts
        = s.map fst ++ b :: (it'.1 :: (t.map fst ++ dsts)) := by
      rw [map_append, append_assoc]
      rfl
    obtain ⟨q, hself, hrest⟩ := Fragmented.seg_of_mem (hsplit ▸ hf) (hsplit ▸ hseg)
    cases stop with
    | some p => exact getLast?_of_seg hf hstops (.inl (cons_ne_nil _ _)) hself
    | none =>
      obtain rfl := end_eq_zero hf hstops (.inl (cons_ne_nil _ _)) hself
      have hmem : it'.1 ∈ (s ++ (b, none) :: it' :: t).map fst ++ dsts := by simp
      obtain ⟨y, l, hl⟩ := exists_cons_of_ne_nil (hf.ne_nil _ hmem)
      rw [flatMap_cons, hl] at hrest
      exact absurd hrest.1.symm hrest.2.1
  rx_last := by
    rintro ⟨b, stop⟩ hit rfl
    obtain ⟨s, rfl⟩ := getLast?_eq_some_iff.mp hit
    have hsplit : (s ++ [(b, stop)]).map fst ++ [] = s.map fst ++ b :: [] := by
      rw [map_append, append_nil]
      rfl
    obtain ⟨q, hself, -⟩ := Fragmented.seg_of_mem (hsplit ▸ hf) (hsplit ▸ hseg)
    cases stop with
    | some p => exact .inl (getLast?_of_seg hf hstops (.inr rfl) hself)
    | none => exact .inr rfl
  rx_pull := by
    rintro ⟨b, stop⟩ hit hne
    obtain ⟨d, ds, rfl⟩ := exists_cons_of_ne_nil hne
    obtain ⟨s, rfl⟩ := getLast?_eq_some_iff.mp hit
    have hsplit : (s ++ [(b, stop)]).map fst ++ d :: ds = s.map fst ++ b :: (d :: ds) := by
      rw [map_append, append_assoc]
      rfl
    obtain ⟨q, hself, -⟩ := Fragmented.seg_of_mem (hsplit ▸ hf) (hsplit ▸ hseg)
    have hnodup := hf.nodup_firsts
    rw [hsplit, nodup_middle] at hnodup
    have hb : b ∉ d :: ds := fun h => (nodup_cons.mp hnodup).1 (mem_append_right _ h)
    rw [hsplit] at hf
    refine hf.length_eq_one (d := d) (by simp) (by simp) (fun h => hb (h ▸ mem_cons_self)) hself ?_
    rw [callNext, getLast?_concat]
    exact linkAll_last hb
  pull := by
    intro d hd
    obtain ⟨ds, d', ds', rfl⟩ := exists_append_of_mem_dropLast hd
    have hsplit : its.map fst ++ (ds ++ d :: d' :: ds')
        = (its.map fst ++ ds) ++ d :: (d' :: ds') := (append_assoc _ _ _).symm
    obtain ⟨q, hself, -⟩ := Fragmented.seg_of_mem (hsplit ▸ hf) (hsplit ▸ hseg)
    have hnodup := (nodup_append.mp hf.nodup_firsts).2.1
    have hne : d' ≠ d := by
      rintro rfl
      exact (nodup_cons.mp (nodup_append.mp hnodup).2.1).1 mem_cons_self
    exact hf.length_eq_one (by simp) (by simp) hne hself (linkAll_next hnodup)

end Necessary

end Joined

end Umq

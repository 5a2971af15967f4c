import RootedC.Proofs.Lowering.Pending

/-!
No string is lost to the collector. The code of an expression uses only slots from its own place on,
so what was pending before stays so, and the value of the expression is pending after it.
-/
namespace RootedC

open Code Lexical

/-- Code that is safe where something is pending and makes its operand pending as well. -/
structure Lowered.Guards (x : Lowered) (Γ : Pending) (N : Nat) (ty : Ty) (q : Place) (k : Nat) :
    Prop where
  quiet : x.value.Quiet
  below : ∀ y ∈ x.value.loads, y.Below q.scope k
  leads : Leads (Γ.Holds N) x.code ((Γ.adding x.value.loads ty q.slot).Holds N)

theorem Lowered.Guards.of_loads_nil {value : Operand} (hq : value.Quiet) (hl : value.loads = [])
    (Γ : Pending) (N : Nat) (ty : Ty) (q : Place) (k : Nat) :
    (Lowered.mk [] value).Guards Γ N ty q k := by
  refine ⟨hq, by simp [hl], Leads.nil.weaken (.adding (.of_imp fun _ _ _ h => h) ?_)⟩
  simp [hl]

theorem Lowered.Guards.of_temporary {code : List Instr} {target : Var} {Γ : Pending} {N k : Nat}
    {ty : Ty} {q : Place} (ht : target.Below q.scope k)
    (h : Leads (Γ.Holds N) code ((Γ.adding [target] ty q.slot).Holds N)) :
    (Lowered.mk code (.load target)).Guards Γ N ty q k := by
  refine ⟨⟨rfl, rfl⟩, fun y hy => ?_, h⟩
  rw [List.mem_singleton.mp hy]
  exact ht

theorem UnaryOp.loads_operand (op : UnaryOp) (x : Operand) : (op.operand x).loads = x.loads := by
  cases op <;> rw [UnaryOp.operand, Operand.loads]

theorem UnaryOp.quiet_operand {op : UnaryOp} {x : Operand} (h : x.Quiet) :
    (op.operand x).Quiet := by
  cases op <;> exact ⟨rfl, by rw [UnaryOp.operand, Operand.collections, h.2]⟩

theorem BinaryOp.ne_str_of_worksOn {op : BinaryOp} {ty : Ty} (h : op.worksOn ty = true) :
    ty ≠ .str := by
  rintro rfl
  cases op <;> cases h

/-- A local gets the value of an operand, which need not be pending any more. -/
theorem Lowered.Guards.write {x : Lowered} {Γ : Pending} {N k : Nat} {ty : Ty} {q : Place}
    (h : x.Guards Γ N ty q k) (hΓ : ∀ y ty n, Γ y ty n → n ≤ N) (hq : q.slot ≤ N) {i : Instr}
    {target : Var} (hi : (∃ c, i = .define c target (some x.value)) ∨ i = .store target x.value) :
    Leads (Γ.Holds N) (x.code ++ [i])
      (((Γ.dropping target).adding [target] ty q.slot).Holds N) := by
  have hmarks : ∀ y ty' n, (Γ.adding x.value.loads ty q.slot) y ty' n → n ≤ N := by
    rintro y ty' n (hy | ⟨-, -, rfl⟩)
    · exact hΓ y ty' n hy
    · exact hq
  refine (h.leads.append (Leads.write hi h.quiet (fun y hy => .inr ⟨hy, rfl, rfl⟩) hmarks)).weaken
    (.of_imp ?_)
  rintro y ty' n (hy | hy)
  · exact .inl ⟨hy.1, .inl hy.2⟩
  · exact .inr hy

/-- A temporary that nothing pending is kept in gets the value of an operand. -/
theorem Lowered.Guards.write_new {x : Lowered} {Γ : Pending} {N k : Nat} {ty ty' : Ty} {q q' : Place}
    (h : x.Guards Γ N ty q k) (hΓ : ∀ y ty n, Γ y ty n → n ≤ N) (hq : q.slot ≤ N) {i : Instr}
    {target : Var} (hi : (∃ c, i = .define c target (some x.value)) ∨ i = .store target x.value)
    (hnew : ∀ y ty n, Γ y ty n → y ≠ target) (hty : ty = .str → ty' = .str)
    (hslot : q.slot ≤ q'.slot) :
    Leads (Γ.Holds N) (x.code ++ [i]) ((Γ.adding [target] ty' q'.slot).Holds N) := by
  refine (h.write hΓ hq hi).weaken (.adding (.of_imp ?_) fun y hy => ?_)
  · exact fun y ty n hy => .inl ⟨hnew y ty n hy, hy⟩
  · exact ⟨ty, q.slot, .inr ⟨hy, rfl, rfl⟩, fun h => ⟨hty h, hslot⟩⟩

/-- A name of a frame is bound anew, and so its local is overwritten. -/
theorem Code.Pending.entails_framing_define {Γ : Pending} {f : Frame} {n n' k : Nat}
    (h : Γ.Below ⟨f.scope, n⟩ k) (hn : n ≤ n') {z : String} {ty : Ty} :
    (((Γ.framing f n).dropping (.named f.scope z)).adding [.named f.scope z] ty n').Entails
      (Γ.framing (f.define f.scope z ty) n') := by
  rintro x ty' m (hx | ⟨y, rfl, hy, rfl⟩)
  · refine ⟨ty', m, .inl ⟨?_, .inl hx⟩, fun h => ⟨h, Nat.le_refl _⟩⟩
    rintro rfl
    exact Nat.lt_irrefl _ (h _ ty' m hx).1
  · rw [Frame.scope_define]
    rw [Frame.define, if_pos rfl] at hy
    by_cases hyz : y = z
    · subst hyz
      rw [Bindings.get?_bind_self, Option.some.injEq] at hy
      subst hy
      exact ⟨ty, m, .inr ⟨List.mem_singleton.mpr rfl, rfl, rfl⟩, fun h => ⟨h, Nat.le_refl _⟩⟩
    · rw [Bindings.get?_bind_of_ne _ _ hyz] at hy
      refine ⟨ty', n, .inl ⟨?_, .inr ⟨y, rfl, hy, rfl⟩⟩, fun h => ⟨h, hn⟩⟩
      rintro ⟨⟩
      exact hyz rfl

namespace Typed.Expr

variable {G : Bindings Ty} {N : Nat}

theorem isCalling_lowerCallee {c : Callee Expr} {b b' : Builder} {call : List Operand → Operand}
    (h : lowerCallee c b = .ok call b') : IsCalling call := by
  cases c with
  | builtin z =>
    rw [lowerCallee] at h
    obtain ⟨rfl, rfl⟩ := pure_eq_ok.mp h
    refine ⟨fun xs => ?_, fun xs => ?_, fun xs => ?_⟩ <;> unfold Lower.builtinCall
    · split <;> rfl
    · split <;> rw [Operand.loads]
    · split
      · exact .inr (by rw [Operand.collections])
      · exact .inl (by rw [Operand.collections])
  | global z =>
    rw [lowerCallee] at h
    obtain ⟨rfl, rfl⟩ := pure_eq_ok.mp h
    exact ⟨fun _ => rfl, fun _ => by rw [Operand.loads], fun _ => .inr (by rw [Operand.collections])⟩
  | literal P =>
    obtain ⟨-, -, -, -, -, -, -, rfl⟩ := lowerCallee_literal h
    exact ⟨fun _ => rfl, fun _ => by rw [Operand.loads], fun _ => .inr (by rw [Operand.collections])⟩

mutual

theorem lower_guards : ∀ {e : Expr} {b b' : Builder} {x : Lowered} {fs : List Frame}
    {p q : Place} {Γ : Pending}, e.lower b = .ok x b' → Fits G fs e p q →
      Γ.Covers p.scope fs → Γ.Below p b.temporaries → q.slot ≤ N →
      x.Guards Γ N e.ty q b'.temporaries
  | .integer _ _, b, b', x, fs, p, q, Γ, h, hf, hc, hb, hN => by
    rw [lower] at h
    obtain ⟨rfl, rfl⟩ := pure_eq_ok.mp h
    exact .of_loads_nil ⟨rfl, rfl⟩ rfl Γ N _ q _
  | .boolean _ _, b, b', x, fs, p, q, Γ, h, hf, hc, hb, hN => by
    rw [lower] at h
    obtain ⟨rfl, rfl⟩ := pure_eq_ok.mp h
    exact .of_loads_nil ⟨rfl, rfl⟩ rfl Γ N _ q _
  | .text _ _ _, b, b', x, fs, p, q, Γ, h, hf, hc, hb, hN => by
    obtain ⟨rfl, rfl⟩ := lower_text h
    exact .of_loads_nil ⟨rfl, rfl⟩ rfl Γ N _ q _
  | .unit _, b, b', x, fs, p, q, Γ, h, hf, hc, hb, hN => by
    rw [lower] at h
    obtain ⟨rfl, rfl⟩ := pure_eq_ok.mp h
    exact .of_loads_nil ⟨rfl, rfl⟩ rfl Γ N _ q _
  | .name i z level origin, b, b', x, fs, p, q, Γ, h, hf, hc, hb, hN => by
    rw [lower] at h
    rw [Fits] at hf
    obtain ⟨rfl, rfl⟩ := pure_eq_ok.mp h
    obtain ⟨-, -, hname, rfl⟩ := hf
    cases origin with
    | lexical scope =>
      obtain ⟨n, hn⟩ := hc.named _ _ _ hname
      obtain ⟨hbelow, hle⟩ := hb _ _ _ hn
      refine ⟨⟨rfl, rfl⟩, ?_, ?_⟩
      · intro y hy
        rw [List.mem_singleton.mp hy]
        exact hbelow
      · refine Leads.nil.weaken (.adding (.of_imp fun _ _ _ h => h) fun y hy => ?_)
        rw [List.mem_singleton.mp hy]
        exact ⟨_, n, hn, fun h => ⟨h, hle⟩⟩
    | global => exact .of_loads_nil ⟨rfl, rfl⟩ rfl Γ N _ q _
    | builtin => exact hname.elim
  | .unary i op operand, b, b', x, fs, p, q, Γ, h, hf, hc, hb, hN => by
    obtain ⟨y, hy, rfl⟩ := lower_unary h
    rw [Fits] at hf
    obtain ⟨hty, -, hx, hfx⟩ := hf
    have hg := lower_guards hy hfx hc hb hN
    have hty' : operand.ty = (Expr.unary i op operand).ty := hx.trans hty.symm
    refine ⟨UnaryOp.quiet_operand hg.quiet, ?_, ?_⟩
    · rw [UnaryOp.loads_operand]
      exact hg.below
    · rw [UnaryOp.loads_operand, ← hty']
      exact hg.leads
  | .binary i op left right, b, b', x, fs, p, q, Γ, h, hf, hc, hb, hN => by
    obtain ⟨l, r, b₁, b₂, hl, hr, hrest⟩ := lower_binary h
    have hmarks : ∀ y ty n, Γ y ty n → n ≤ N := fun y ty n hy =>
      Nat.le_trans (hb y ty n hy).2 (Nat.le_trans hf.slot_le hN)
    rw [Fits] at hf
    obtain ⟨-, -, hsame, hworks, m, hfl, hfr⟩ := hf
    have hstr := BinaryOp.ne_str_of_worksOn hworks
    have hT₁ := (lower_emits hl).temporaries
    have hT₂ := (lower_emits hr).temporaries
    have hn₁ := hfl.within.le
    have hmN : m.slot ≤ N := Nat.le_trans hfr.slot_le hN
    have hgl := lower_guards hl hfl hc hb hmN
    have hb₁ := hb.mono hn₁ hfl.slot_le hT₁
    rcases hrest with ⟨hop, rfl, c, -, rfl⟩ | ⟨-, rfl, rfl⟩
    · have hgr := lower_guards hr hfr (hc.mono hn₁ fun _ _ _ h => h) hb₁ hN
      have hkept : ∀ y ty n, Γ y ty n → y ≠ b₂.temporary.1 := by
        rintro y ty n hy rfl
        exact Nat.not_lt.mpr (Nat.le_trans hT₁ hT₂) (hb _ ty n hy).1
      have hdefine : Leads (Γ.Holds N) (l.code ++ [Instr.define c b₂.temporary.1 (some l.value)])
          ((Γ.adding [b₂.temporary.1] left.ty m.slot).Holds N) :=
        hgl.write_new hmarks hmN (.inl ⟨c, rfl⟩) hkept id (Nat.le_refl _)
      have hright : Leads ((Γ.adding [b₂.temporary.1] left.ty m.slot).Holds N)
          (r.code ++ [Instr.store b₂.temporary.1 r.value])
          ((Γ.adding [b₂.temporary.1] i.ty q.slot).Holds N) :=
        (hgr.write_new hmarks hN (.inr rfl) hkept (fun h => absurd (hsame ▸ h) hstr)
          (Nat.le_refl _)).strengthen (Γ.entails_of_adding _ _ _)
      have hskip : Leads ((Γ.adding [b₂.temporary.1] left.ty m.slot).Holds N) []
          ((Γ.adding [b₂.temporary.1] i.ty q.slot).Holds N) :=
        Leads.nil.weaken (.adding (Γ.entails_of_adding _ _ _) fun y hy =>
          ⟨left.ty, m.slot, .inr ⟨hy, rfl, rfl⟩, fun h => absurd h hstr⟩)
      have hbranch : Leads ((Γ.adding [b₂.temporary.1] left.ty m.slot).Holds N)
          [.branch (.load b₂.temporary.1)
            (Lower.rightArm op (r.code ++ [Instr.store b₂.temporary.1 r.value])).1
            (Lower.rightArm op (r.code ++ [Instr.store b₂.temporary.1 r.value])).2]
          ((Γ.adding [b₂.temporary.1] i.ty q.slot).Holds N) := by
        have hreads : ∀ a E, (Γ.adding [b₂.temporary.1] left.ty m.slot).Holds N a E →
            ∀ y ∈ (Operand.load b₂.temporary.1).loads, ¬ E y := fun a E hold y hy =>
          (hold.good y left.ty m.slot (.inr ⟨hy, rfl, rfl⟩)).1
        unfold Lower.rightArm
        split
        · exact .branch hreads rfl hright hskip
        · exact .branch hreads rfl hskip hright
      have hall := hdefine.append hbranch
      rw [List.append_assoc] at hall
      exact .of_temporary (Nat.lt_succ_self _) hall
    · have hgr := lower_guards hr hfr (hc.adding hn₁ l.value.loads left.ty m.slot)
        (hb₁.adding hgl.below (Nat.le_refl _)) hN
      refine ⟨⟨rfl, ?_⟩, ?_, ?_⟩
      · rw [Operand.collections, hgl.quiet.2, hgr.quiet.2, List.nil_append]
      · intro y hy
        rw [Operand.loads, List.mem_append] at hy
        rcases hy with hy | hy
        · exact (hgl.below y hy).mono hfr.within.le hT₂
        · exact hgr.below y hy
      · refine (hgl.leads.append hgr.leads).weaken (.adding (.of_imp ?_) fun y hy => ?_)
        · exact fun _ _ _ hy => .inl (.inl hy)
        · rw [Operand.loads, List.mem_append] at hy
          rcases hy with hy | hy
          · exact ⟨left.ty, m.slot, .inl (.inr ⟨hy, rfl, rfl⟩), fun h => absurd h hstr⟩
          · exact ⟨right.ty, q.slot, .inr ⟨hy, rfl, rfl⟩, fun h => absurd (hsame ▸ h) hstr⟩
  | .call i callee arguments, b, b', x, fs, p, q, Γ, h, hf, hc, hb, hN => by
    obtain ⟨code, values, b₁, call, b₂, c, ha, hcall, hty, rfl, rfl⟩ := lower_call h
    rw [Fits] at hf
    obtain ⟨tys, m, m', hfc, hfa, hroots⟩ := hf
    have hT₁ := (lowerArguments_emits ha).temporaries
    have hT₂ := (lowerCallee_emits hcall).temporaries
    have hm'N : m'.slot ≤ N := Nat.le_trans hroots.slot_le hN
    have hb₀ := hb.mono hfc.within.le (Nat.le_of_eq hfc.slot_eq.symm) (Nat.le_refl _)
    obtain ⟨hquiet, hbelow, hleads⟩ := lowerArguments_guards ha hfa
      (hc.mono hfc.within.le fun _ _ _ h => h) hb₀ hm'N
    have hb₁ : (Γ.adding (loadsOfAll values) .str m'.slot).Below m' b₁.temporaries :=
      (hb₀.mono hfa.within.le hfa.slot_le hT₁).adding hbelow (Nat.le_refl _)
    have htarget : ¬ b₂.temporary.1.Below m'.scope b₁.temporaries := Nat.not_lt.mpr hT₂
    have hall := hleads.append (Leads.call (isCalling_lowerCallee hcall) hquiet
      (fun y hy => .inr ⟨hy, rfl, rfl⟩) hb₁ htarget hty hroots hm'N hN)
    rw [← List.append_assoc] at hall
    exact .of_temporary (Nat.lt_succ_self _)
      (hall.weaken (.of_imp fun y ty n hy => hy.imp_left .inl))
  | .branch i condition thenArm elseArm, b, b', x, fs, p, q, Γ, h, hf, hc, hb, hN => by
    obtain ⟨y, b₁, c, l, b₂, r, hy, -, hl, hr, rfl⟩ := lower_branch h
    have hmarks : ∀ z ty n, Γ z ty n → n ≤ N := fun z ty n hz =>
      Nat.le_trans (hb z ty n hz).2 (Nat.le_trans hf.slot_le hN)
    rw [Fits] at hf
    obtain ⟨-, -, hlty, hrty, m, m', hfy, hfl, hfr⟩ := hf
    have hT₁ := (lower_emits hy).temporaries
    have hT₂ : b₁.temporaries + 1 ≤ b₂.temporaries := (lower_emits hl).temporaries
    have hT₃ := (lower_emits hr).temporaries
    have hn₁ := hfy.within.le
    have hn₂ := hfl.within.le
    have hm'N : m'.slot ≤ N := Nat.le_trans hfr.slot_le hN
    have hmN : m.slot ≤ N := Nat.le_trans hfl.slot_le hm'N
    have hgy := lower_guards hy hfy hc hb hmN
    have hb₁ : Γ.Below m b₁.temporaries := hb.mono hn₁ hfy.slot_le hT₁
    have hgl := lower_guards hl hfl (hc.mono hn₁ fun _ _ _ h => h)
      (hb₁.mono (Nat.le_refl _) (Nat.le_refl _) (Nat.le_succ _)) hm'N
    have hgr := lower_guards hr hfr (hc.mono (Nat.le_trans hn₁ hn₂) fun _ _ _ h => h)
      (hb₁.mono hn₂ hfl.slot_le (Nat.le_of_lt hT₂)) hN
    have hnew : ∀ z ty n, (Γ.adding y.value.loads condition.ty m.slot) z ty n →
        z ≠ b₁.temporary.1 := by
      rintro z ty n hz rfl
      exact Nat.lt_irrefl _ ((hb₁.adding hgy.below (Nat.le_refl _)) _ ty n hz).1
    have hundefine : Leads (Γ.Holds N) (y.code ++ [Instr.define c b₁.temporary.1 none])
        ((Γ.adding y.value.loads condition.ty m.slot).Holds N) := by
      refine hgy.leads.append (.undefine hnew ?_)
      exact fun z ty n hz => Nat.le_trans ((hb₁.adding hgy.below (Nat.le_refl _)) z ty n hz).2 hmN
    have hbranch : Leads ((Γ.adding y.value.loads condition.ty m.slot).Holds N)
        [.branch y.value (l.code ++ [Instr.store b₁.temporary.1 l.value])
          (r.code ++ [Instr.store b₁.temporary.1 r.value])]
        ((Γ.adding [b₁.temporary.1] i.ty q.slot).Holds N) := by
      have hkept : ∀ z ty n, Γ z ty n → z ≠ b₁.temporary.1 :=
        fun z ty n hz => hnew z ty n (.inl hz)
      refine .branch (fun a E hold z hz => (hold.good z _ _ (.inr ⟨hz, rfl, rfl⟩)).1) hgy.quiet.2
        ?_ ?_
      · exact (hgl.write_new hmarks hm'N (.inr rfl) hkept (fun h => hlty ▸ h)
          hfr.slot_le).strengthen (Γ.entails_of_adding _ _ _)
      · exact (hgr.write_new hmarks hN (.inr rfl) hkept (fun h => hrty ▸ h)
          (Nat.le_refl _)).strengthen (Γ.entails_of_adding _ _ _)
    have hall := hundefine.append hbranch
    rw [List.append_assoc] at hall
    exact .of_temporary (Nat.lt_of_lt_of_le hT₂ hT₃) hall
  | .letIn i scope declarations body, b, b', x, fs, p, q, Γ, h, hf, hc, hb, hN => by
    obtain ⟨code, b₁, y, b₂, hd, hy, hrest⟩ := lower_let h
    rw [Fits] at hf
    obtain ⟨rfl, hty, fs', m, m', hfd, hfy, hroots⟩ := hf
    have hT₁ := (lowerDeclarations_emits hd).temporaries
    have hT₂ := (lower_emits hy).temporaries
    have hn₁ : p.scope + 1 ≤ m.scope := hfd.within.le
    have hs₁ : p.slot ≤ m.slot := hfd.slot_le
    have hm'N : m'.slot ≤ N := Nat.le_trans hroots.slot_le hN
    have hmN : m.slot ≤ N := Nat.le_trans hfy.slot_le hm'N
    obtain ⟨f, rfl, hfs, hdeclared⟩ := lowerDeclarations_guards hd hfd rfl hc hb hmN
      (Nat.lt_succ_self _)
    have hopened : Leads (Γ.Holds N) code ((Γ.framing f m.slot).Holds N) := by
      refine hdeclared.strengthen (.of_imp ?_)
      rintro z ty n (hz | ⟨_, _, hz, -⟩)
      · exact hz
      · cases hz
    have hfm : f.scope < m.scope := by omega
    have hbf : (Γ.framing f m.slot).Below m b₁.temporaries :=
      (hb.mono (Nat.le_of_succ_le hn₁) hs₁ hT₁).framing hfm
    have hgy := lower_guards hy hfy (hc.framing (Nat.le_of_succ_le hn₁) hfm m.slot) hbf hm'N
    have hfree : ∀ d ∈ declarations, ∀ slot ∈ d.2.root?, p.slot ≤ slot ∧ slot < m.slot :=
      hfd.root_bounds
    have hout : (Γ.framing f m.slot).Entails Γ := .of_imp fun _ _ _ => .inl
    rcases hrest with ⟨hnone, rfl, rfl⟩ | ⟨slot, c, hslot, hc', rfl, rfl⟩
    · rw [hnone] at hroots
      obtain ⟨hheap, rfl⟩ := hroots.of_none
      have hstr := ne_str_of_not_mayBeHeap hheap
      have hbody : Leads (Γ.Holds N) (code ++ y.code)
          ((Γ.adding y.value.loads i.ty q.slot).Holds N) := by
        refine (hopened.append hgy.leads).weaken (.adding (.trans
          (Pending.entails_of_adding _ _ _ _) hout) fun z hz => ?_)
        exact ⟨_, _, .inr ⟨hz, rfl, rfl⟩, fun h => absurd (hty.trans h) hstr⟩
      refine ⟨hgy.quiet, hgy.below, hbody.append (.clearRoots fun d hd slot hs a E hold => ?_)⟩
      refine hold.clear ?_
      rintro z ty n (hz | ⟨-, rfl, -⟩)
      · exact .inl (Nat.le_trans (hb z ty n hz).2 (hfree d hd slot hs).1)
      · exact .inr hstr
    · rw [hslot] at hroots
      obtain ⟨hheap, rfl, rfl⟩ := hroots.of_some
      have hnew : ∀ z ty n, (Γ.framing f m.slot) z ty n → z ≠ b₂.temporary.1 := by
        rintro z ty n hz rfl
        exact Nat.not_lt.mpr hT₂ (hbf _ ty n hz).1
      have hmarks : ∀ z ty n, (Γ.framing f m.slot) z ty n → n ≤ N := fun z ty n hz =>
        Nat.le_trans (hbf z ty n hz).2 hmN
      have hwrite : Leads ((Γ.framing f m.slot).Holds N)
          (y.code ++ [Instr.define c b₂.temporary.1 (some y.value)])
          (((Γ.framing f m.slot).adding [b₂.temporary.1] body.ty m'.slot).Holds N) :=
        hgy.write_new hmarks hm'N (.inl ⟨c, rfl⟩) hnew id (Nat.le_refl _)
      have hbody : Leads (Γ.Holds N)
          (code ++ (y.code ++ [Instr.define c b₂.temporary.1 (some y.value)]))
          (fun a E => Γ.Holds N a E ∧ ¬ E b₂.temporary.1) := by
        refine (hopened.append hwrite).mono (fun _ _ h => h) fun a E hold => ⟨?_, ?_⟩
        · exact hold.weaken (.trans (Pending.entails_of_adding _ _ _ _) hout)
        · exact (hold.good _ _ _ (.inr ⟨List.mem_singleton.mpr rfl, rfl, rfl⟩)).1
      have hleave := @Leads.handOver Γ N p.slot m'.slot b₂.temporary.1 declarations
        (fun z ty n hz => (hb z ty n hz).2) (Nat.le_trans hs₁ hfy.slot_le) (fun d hd slot hs => ⟨(hfree d hd slot hs).1,
          Nat.lt_of_lt_of_le (hfree d hd slot hs).2 hfy.slot_le⟩) hm'N
      have hall := hbody.append hleave
      rw [← str_of_mayBeHeap hc' hheap] at hall
      simp only [List.append_assoc, List.cons_append, List.nil_append] at hall ⊢
      exact .of_temporary (Nat.lt_succ_self _) hall
  | .block i body, b, b', x, fs, p, q, Γ, h, hf, hc, hb, hN => by
    rw [lower] at h
    rw [Fits] at hf
    have hg := lowerBody_guards h hf.2.2 hc hb hN
    rw [← hf.1] at hg
    exact hg

theorem lowerBody_guards : ∀ {es : List Expr} {b b' : Builder} {x : Lowered} {fs : List Frame}
    {p q : Place} {Γ : Pending}, lowerBody es b = .ok x b' → AllFit G fs es p q →
      Γ.Covers p.scope fs → Γ.Below p b.temporaries → q.slot ≤ N →
      x.Guards Γ N ((es.getLast?.map (·.ty)).getD .unit) q b'.temporaries
  | [], b, b', x, fs, p, q, Γ, h, hf, hc, hb, hN => by
    rw [lowerBody] at h
    obtain ⟨rfl, rfl⟩ := pure_eq_ok.mp h
    exact .of_loads_nil ⟨rfl, rfl⟩ rfl Γ N _ q _
  | [e], b, b', x, fs, p, q, Γ, h, hf, hc, hb, hN => by
    rw [lowerBody] at h
    rw [AllFit] at hf
    obtain ⟨m, hfe, hnil⟩ := hf
    rw [AllFit] at hnil
    subst hnil
    have hg := lower_guards h hfe hc hb hN
    exact hg
  | e :: next :: more, b, b', x, fs, p, q, Γ, h, hf, hc, hb, hN => by
    obtain ⟨code, b₁, y, hd, hy, rfl⟩ := lowerBody_cons h
    rw [AllFit] at hf
    obtain ⟨m, hfe, hfm⟩ := hf
    have hT₁ : b.temporaries ≤ b₁.temporaries := hd.emits.temporaries
    have hn₁ := hfe.within.le
    have hmN : m.slot ≤ N := Nat.le_trans hfm.slot_le hN
    have hfirst : Leads (Γ.Holds N) code (Γ.Holds N) := by
      cases e with
      | call info callee arguments =>
        cases hd with
        | call ha hcall =>
          rw [Fits] at hfe
          obtain ⟨tys, m₁, m₂, hfc, hfa, hroots⟩ := hfe
          have hm₂N : m₂.slot ≤ N := Nat.le_trans hroots.slot_le hmN
          have hb₀ := hb.mono hfc.within.le (Nat.le_of_eq hfc.slot_eq.symm) (Nat.le_refl _)
          obtain ⟨hquiet, hbelow, hleads⟩ := lowerArguments_guards ha hfa
            (hc.mono hfc.within.le fun _ _ _ h => h) hb₀ hm₂N
          have hmarks : ∀ z ty n, Γ.adding (loadsOfAll _) .str m₂.slot z ty n → n ≤ N :=
            fun z ty n hz => Nat.le_trans
              (((hb₀.mono hfa.within.le hfa.slot_le (lowerArguments_emits ha).temporaries).adding
                hbelow (Nat.le_refl _)) z ty n hz).2 hm₂N
          exact (hleads.append (.eval (isCalling_lowerCallee hcall) hquiet
            (fun z hz => .inr ⟨hz, rfl, rfl⟩) hmarks hm₂N)).weaken (Γ.entails_of_adding _ _ _)
        | other he => exact (lower_guards he hfe hc hb hmN).leads.weaken (Γ.entails_of_adding _ _ _)
      | _ =>
        cases hd with
        | other he => exact (lower_guards he hfe hc hb hmN).leads.weaken (Γ.entails_of_adding _ _ _)
    have hg := lowerBody_guards hy hfm (hc.mono hn₁ fun _ _ _ h => h)
      (hb.mono hn₁ hfe.slot_le hT₁) hN
    exact ⟨hg.quiet, hg.below, hfirst.append hg.leads⟩

theorem lowerDeclarations_guards : ∀ {ds : List (String × Expr)} {seen : List (String × String)}
    {b b' : Builder} {code : List Instr} {f : Frame} {fs fs' : List Frame} {scope : Nat}
    {p q : Place} {Γ : Pending}, lowerDeclarations scope seen ds b = .ok code b' →
      DeclarationsFit G scope ds (f :: fs) fs' p q → f.scope = scope → Γ.Covers scope fs →
      Γ.Below ⟨scope, p.slot⟩ b.temporaries → q.slot ≤ N → scope < p.scope →
      ∃ f', fs' = f' :: fs ∧ f'.scope = scope ∧
        Leads ((Γ.framing f p.slot).Holds N) code ((Γ.framing f' q.slot).Holds N)
  | [], seen, b, b', code, f, fs, fs', scope, p, q, Γ, h, hf, hs, hc, hb, hN, hlt => by
    rw [lowerDeclarations] at h
    rw [DeclarationsFit] at hf
    obtain ⟨rfl, rfl⟩ := pure_eq_ok.mp h
    obtain ⟨rfl, rfl⟩ := hf
    exact ⟨f, rfl, hs, .nil⟩
  | (z, value) :: more, seen, b, b', code, f, fs, fs', scope, p, q, Γ, h, hf, hs, hc, hb, hN,
      hlt => by
    obtain ⟨y, b₁, c, i, code', hy, -, hi, hm, rfl⟩ := lowerDeclarations_cons h
    rw [DeclarationsFit] at hf
    obtain ⟨m, hfv, hfm⟩ := hf
    subst hs
    have hT₁ := (lower_emits hy).temporaries
    have hn₁ := hfv.within.le
    have hmN : m.slot ≤ N := Nat.le_trans hfm.slot_le hN
    rw [List.map_cons, Frame.map_define_of_not_mem hc.not_mem] at hfm
    have hbp : Γ.Below p b.temporaries := hb.mono (Nat.le_of_lt hlt) (Nat.le_refl _) (Nat.le_refl _)
    have hgy := lower_guards hy hfv (hc.framing (Nat.le_of_lt hlt) hlt p.slot) (hbp.framing hlt) hmN
    obtain ⟨f', rfl, hs', hmore⟩ := lowerDeclarations_guards hm hfm (Frame.scope_define _ _ _ _) hc
      (hb.mono (Nat.le_refl _) hfv.slot_le hT₁) hN (Nat.lt_of_lt_of_le hlt hn₁)
    refine ⟨f', rfl, hs', Leads.append ?_ hmore⟩
    refine (hgy.write ?_ hmN (hi.imp_left fun h => ⟨c, h⟩)).weaken ?_
    · exact fun x ty n hx => Nat.le_trans ((hbp.framing hlt) x ty n hx).2
        (Nat.le_trans hfv.slot_le hmN)
    · exact Pending.entails_framing_define hb hfv.slot_le

theorem lowerArguments_guards : ∀ {es : List Expr} {b b' : Builder} {code : List Instr}
    {values : List Operand} {fs : List Frame} {tys : List Ty} {p q : Place} {Γ : Pending},
    lowerArguments es b = .ok (code, values) b' → ArgumentsFit G fs es tys p q →
      Γ.Covers p.scope fs → Γ.Below p b.temporaries → q.slot ≤ N →
      (∀ x ∈ values, x.Quiet) ∧ (∀ y ∈ loadsOfAll values, y.Below q.scope b'.temporaries) ∧
        Leads (Γ.Holds N) code ((Γ.adding (loadsOfAll values) .str q.slot).Holds N)
  | [], b, b', code, values, fs, tys, p, q, Γ, h, hf, hc, hb, hN => by
    rw [lowerArguments] at h
    obtain ⟨hnil, rfl⟩ := pure_eq_ok.mp h
    cases hnil
    refine ⟨by simp, by simp [loadsOfAll], Leads.nil.weaken (.adding (.of_imp fun _ _ _ h => h) ?_)⟩
    simp [loadsOfAll]
  | e :: more, b, b', code, values, fs, tys, p, q, Γ, h, hf, hc, hb, hN => by
    obtain ⟨y, b₁, code', values', hy, hm, rfl, rfl⟩ := lowerArguments_cons h
    cases tys with
    | nil => exact hf.elim
    | cons ty tys =>
      rw [ArgumentsFit] at hf
      obtain ⟨-, m, hfe, hfm⟩ := hf
      have hT₁ := (lower_emits hy).temporaries
      have hT₂ := (lowerArguments_emits hm).temporaries
      have hn₁ := hfe.within.le
      have hge := lower_guards hy hfe hc hb (Nat.le_trans hfm.slot_le hN)
      obtain ⟨hquiet, hbelow, hleads⟩ := lowerArguments_guards hm hfm
        (hc.adding hn₁ y.value.loads e.ty m.slot)
        ((hb.mono hn₁ hfe.slot_le hT₁).adding hge.below (Nat.le_refl _)) hN
      refine ⟨List.forall_mem_cons.mpr ⟨hge.quiet, hquiet⟩, ?_, ?_⟩
      · intro z hz
        rw [loadsOfAll, List.mem_append] at hz
        rcases hz with hz | hz
        · exact (hge.below z hz).mono hfm.within.le hT₂
        · exact hbelow z hz
      · refine (hge.leads.append hleads).weaken (.adding (.of_imp ?_) fun z hz => ?_)
        · exact fun _ _ _ hz => .inl (.inl hz)
        · rw [loadsOfAll, List.mem_append] at hz
          rcases hz with hz | hz
          · exact ⟨e.ty, m.slot, .inl (.inr ⟨hz, rfl, rfl⟩), fun _ => ⟨rfl, hfm.slot_le⟩⟩
          · exact ⟨.str, q.slot, .inr ⟨hz, rfl, rfl⟩, fun _ => ⟨rfl, Nat.le_refl _⟩⟩

end

end Typed.Expr

end RootedC

/-
# Opcodes

The instructions of the machine as a method stores them.  Short encodings are
not told apart: `iload` of slot 0 covers the one-byte form.  Every opcode has a
number, a lower-case mnemonic and an operand shape.
-/
import JvmListing.Text.LetterCase
import JvmListing.Ty.Basic

namespace JvmListing

/-- The operands an instruction takes. -/
inductive OperandShape where
  | none | int | newArray | var | type | field | method | invokeDynamic | jump | ldc | iinc
  | tableSwitch | lookupSwitch | multiArray
  deriving DecidableEq, Repr

/-- An instruction of the machine. -/
inductive Opcode where
  | nop | aconstNull | iconstM1 | iconst0 | iconst1 | iconst2 | iconst3 | iconst4 | iconst5
  | lconst0 | lconst1 | fconst0 | fconst1 | fconst2 | dconst0 | dconst1 | bipush | sipush | ldc
  | iload | lload | fload | dload | aload | iaload | laload | faload | daload | aaload | baload
  | caload | saload | istore | lstore | fstore | dstore | astore | iastore | lastore | fastore
  | dastore | aastore | bastore | castore | sastore | pop | pop2 | dup | dupX1 | dupX2 | dup2
  | dup2X1 | dup2X2 | swap | iadd | ladd | fadd | dadd | isub | lsub | fsub | dsub | imul
  | lmul | fmul | dmul | idiv | ldiv | fdiv | ddiv | irem | lrem | frem | drem | ineg | lneg
  | fneg | dneg | ishl | lshl | ishr | lshr | iushr | lushr | iand | land | ior | lor | ixor
  | lxor | iinc | i2l | i2f | i2d | l2i | l2f | l2d | f2i | f2l | f2d | d2i | d2l | d2f | i2b
  | i2c | i2s | lcmp | fcmpl | fcmpg | dcmpl | dcmpg | ifeq | ifne | iflt | ifge | ifgt | ifle
  | ifIcmpeq | ifIcmpne | ifIcmplt | ifIcmpge | ifIcmpgt | ifIcmple | ifAcmpeq | ifAcmpne
  | goto | jsr | ret | tableswitch | lookupswitch | ireturn | lreturn | freturn | dreturn
  | areturn | vreturn | getstatic | putstatic | getfield | putfield | invokevirtual
  | invokespecial | invokestatic | invokeinterface | invokedynamic | new | newarray | anewarray
  | arraylength | athrow | checkcast | instanceof | monitorenter | monitorexit | multianewarray
  | ifnull | ifnonnull
  deriving DecidableEq, Repr

/-- How an instruction touches the local variable it names. -/
inductive VarUse where
  /-- Stores a fresh value. -/
  | assign
  /-- Reads the current value. -/
  | load
  /-- Reads and writes in place. -/
  | update
  deriving DecidableEq, Repr

namespace Opcode

/-- Every opcode, by ascending number. -/
def all : List Opcode :=
  [.nop, .aconstNull, .iconstM1, .iconst0, .iconst1, .iconst2, .iconst3, .iconst4, .iconst5,
   .lconst0, .lconst1, .fconst0, .fconst1, .fconst2, .dconst0, .dconst1, .bipush, .sipush,
   .ldc, .iload, .lload, .fload, .dload, .aload, .iaload, .laload, .faload, .daload, .aaload,
   .baload, .caload, .saload, .istore, .lstore, .fstore, .dstore, .astore, .iastore, .lastore,
   .fastore, .dastore, .aastore, .bastore, .castore, .sastore, .pop, .pop2, .dup, .dupX1,
   .dupX2, .dup2, .dup2X1, .dup2X2, .swap, .iadd, .ladd, .fadd, .dadd, .isub, .lsub, .fsub,
   .dsub, .imul, .lmul, .fmul, .dmul, .idiv, .ldiv, .fdiv, .ddiv, .irem, .lrem, .frem, .drem,
   .ineg, .lneg, .fneg, .dneg, .ishl, .lshl, .ishr, .lshr, .iushr, .lushr, .iand, .land, .ior,
   .lor, .ixor, .lxor, .iinc, .i2l, .i2f, .i2d, .l2i, .l2f, .l2d, .f2i, .f2l, .f2d, .d2i, .d2l,
   .d2f, .i2b, .i2c, .i2s, .lcmp, .fcmpl, .fcmpg, .dcmpl, .dcmpg, .ifeq, .ifne, .iflt, .ifge,
   .ifgt, .ifle, .ifIcmpeq, .ifIcmpne, .ifIcmplt, .ifIcmpge, .ifIcmpgt, .ifIcmple, .ifAcmpeq,
   .ifAcmpne, .goto, .jsr, .ret, .tableswitch, .lookupswitch, .ireturn, .lreturn, .freturn,
   .dreturn, .areturn, .vreturn, .getstatic, .putstatic, .getfield, .putfield, .invokevirtual,
   .invokespecial, .invokestatic, .invokeinterface, .invokedynamic, .new, .newarray,
   .anewarray, .arraylength, .athrow, .checkcast, .instanceof, .monitorenter, .monitorexit,
   .multianewarray, .ifnull, .ifnonnull]

/-- The number of the opcode. -/
def code : Opcode → Nat
  | .nop => 0
  | .aconstNull => 1
  | .iconstM1 => 2
  | .iconst0 => 3
  | .iconst1 => 4
  | .iconst2 => 5
  | .iconst3 => 6
  | .iconst4 => 7
  | .iconst5 => 8
  | .lconst0 => 9
  | .lconst1 => 10
  | .fconst0 => 11
  | .fconst1 => 12
  | .fconst2 => 13
  | .dconst0 => 14
  | .dconst1 => 15
  | .bipush => 16
  | .sipush => 17
  | .ldc => 18
  | .iload => 21
  | .lload => 22
  | .fload => 23
  | .dload => 24
  | .aload => 25
  | .iaload => 46
  | .laload => 47
  | .faload => 48
  | .daload => 49
  | .aaload => 50
  | .baload => 51
  | .caload => 52
  | .saload => 53
  | .istore => 54
  | .lstore => 55
  | .fstore => 56
  | .dstore => 57
  | .astore => 58
  | .iastore => 79
  | .lastore => 80
  | .fastore => 81
  | .dastore => 82
  | .aastore => 83
  | .bastore => 84
  | .castore => 85
  | .sastore => 86
  | .pop => 87
  | .pop2 => 88
  | .dup => 89
  | .dupX1 => 90
  | .dupX2 => 91
  | .dup2 => 92
  | .dup2X1 => 93
  | .dup2X2 => 94
  | .swap => 95
  | .iadd => 96
  | .ladd => 97
  | .fadd => 98
  | .dadd => 99
  | .isub => 100
  | .lsub => 101
  | .fsub => 102
  | .dsub => 103
  | .imul => 104
  | .lmul => 105
  | .fmul => 106
  | .dmul => 107
  | .idiv => 108
  | .ldiv => 109
  | .fdiv => 110
  | .ddiv => 111
  | .irem => 112
  | .lrem => 113
  | .frem => 114
  | .drem => 115
  | .ineg => 116
  | .lneg => 117
  | .fneg => 118
  | .dneg => 119
  | .ishl => 120
  | .lshl => 121
  | .ishr => 122
  | .lshr => 123
  | .iushr => 124
  | .lushr => 125
  | .iand => 126
  | .land => 127
  | .ior => 128
  | .lor => 129
  | .ixor => 130
  | .lxor => 131
  | .iinc => 132
  | .i2l => 133
  | .i2f => 134
  | .i2d => 135
  | .l2i => 136
  | .l2f => 137
  | .l2d => 138
  | .f2i => 139
  | .f2l => 140
  | .f2d => 141
  | .d2i => 142
  | .d2l => 143
  | .d2f => 144
  | .i2b => 145
  | .i2c => 146
  | .i2s => 147
  | .lcmp => 148
  | .fcmpl => 149
  | .fcmpg => 150
  | .dcmpl => 151
  | .dcmpg => 152
  | .ifeq => 153
  | .ifne => 154
  | .iflt => 155
  | .ifge => 156
  | .ifgt => 157
  | .ifle => 158
  | .ifIcmpeq => 159
  | .ifIcmpne => 160
  | .ifIcmplt => 161
  | .ifIcmpge => 162
  | .ifIcmpgt => 163
  | .ifIcmple => 164
  | .ifAcmpeq => 165
  | .ifAcmpne => 166
  | .goto => 167
  | .jsr => 168
  | .ret => 169
  | .tableswitch => 170
  | .lookupswitch => 171
  | .ireturn => 172
  | .lreturn => 173
  | .freturn => 174
  | .dreturn => 175
  | .areturn => 176
  | .vreturn => 177
  | .getstatic => 178
  | .putstatic => 179
  | .getfield => 180
  | .putfield => 181
  | .invokevirtual => 182
  | .invokespecial => 183
  | .invokestatic => 184
  | .invokeinterface => 185
  | .invokedynamic => 186
  | .new => 187
  | .newarray => 188
  | .anewarray => 189
  | .arraylength => 190
  | .athrow => 191
  | .checkcast => 192
  | .instanceof => 193
  | .monitorenter => 194
  | .monitorexit => 195
  | .multianewarray => 197
  | .ifnull => 198
  | .ifnonnull => 199

/-- The lower-case mnemonic. -/
def mnemonic : Opcode → String
  | .nop => "nop"
  | .aconstNull => "aconst_null"
  | .iconstM1 => "iconst_m1"
  | .iconst0 => "iconst_0"
  | .iconst1 => "iconst_1"
  | .iconst2 => "iconst_2"
  | .iconst3 => "iconst_3"
  | .iconst4 => "iconst_4"
  | .iconst5 => "iconst_5"
  | .lconst0 => "lconst_0"
  | .lconst1 => "lconst_1"
  | .fconst0 => "fconst_0"
  | .fconst1 => "fconst_1"
  | .fconst2 => "fconst_2"
  | .dconst0 => "dconst_0"
  | .dconst1 => "dconst_1"
  | .bipush => "bipush"
  | .sipush => "sipush"
  | .ldc => "ldc"
  | .iload => "iload"
  | .lload => "lload"
  | .fload => "fload"
  | .dload => "dload"
  | .aload => "aload"
  | .iaload => "iaload"
  | .laload => "laload"
  | .faload => "faload"
  | .daload => "daload"
  | .aaload => "aaload"
  | .baload => "baload"
  | .caload => "caload"
  | .saload => "saload"
  | .istore => "istore"
  | .lstore => "lstore"
  | .fstore => "fstore"
  | .dstore => "dstore"
  | .astore => "astore"
  | .iastore => "iastore"
  | .lastore => "lastore"
  | .fastore => "fastore"
  | .dastore => "dastore"
  | .aastore => "aastore"
  | .bastore => "bastore"
  | .castore => "castore"
  | .sastore => "sastore"
  | .pop => "pop"
  | .pop2 => "pop2"
  | .dup => "dup"
  | .dupX1 => "dup_x1"
  | .dupX2 => "dup_x2"
  | .dup2 => "dup2"
  | .dup2X1 => "dup2_x1"
  | .dup2X2 => "dup2_x2"
  | .swap => "swap"
  | .iadd => "iadd"
  | .ladd => "ladd"
  | .fadd => "fadd"
  | .dadd => "dadd"
  | .isub => "isub"
  | .lsub => "lsub"
  | .fsub => "fsub"
  | .dsub => "dsub"
  | .imul => "imul"
  | .lmul => "lmul"
  | .fmul => "fmul"
  | .dmul => "dmul"
  | .idiv => "idiv"
  | .ldiv => "ldiv"
  | .fdiv => "fdiv"
  | .ddiv => "ddiv"
  | .irem => "irem"
  | .lrem => "lrem"
  | .frem => "frem"
  | .drem => "drem"
  | .ineg => "ineg"
  | .lneg => "lneg"
  | .fneg => "fneg"
  | .dneg => "dneg"
  | .ishl => "ishl"
  | .lshl => "lshl"
  | .ishr => "ishr"
  | .lshr => "lshr"
  | .iushr => "iushr"
  | .lushr => "lushr"
  | .iand => "iand"
  | .land => "land"
  | .ior => "ior"
  | .lor => "lor"
  | .ixor => "ixor"
  | .lxor => "lxor"
  | .iinc => "iinc"
  | .i2l => "i2l"
  | .i2f => "i2f"
  | .i2d => "i2d"
  | .l2i => "l2i"
  | .l2f => "l2f"
  | .l2d => "l2d"
  | .f2i => "f2i"
  | .f2l => "f2l"
  | .f2d => "f2d"
  | .d2i => "d2i"
  | .d2l => "d2l"
  | .d2f => "d2f"
  | .i2b => "i2b"
  | .i2c => "i2c"
  | .i2s => "i2s"
  | .lcmp => "lcmp"
  | .fcmpl => "fcmpl"
  | .fcmpg => "fcmpg"
  | .dcmpl => "dcmpl"
  | .dcmpg => "dcmpg"
  | .ifeq => "ifeq"
  | .ifne => "ifne"
  | .iflt => "iflt"
  | .ifge => "ifge"
  | .ifgt => "ifgt"
  | .ifle => "ifle"
  | .ifIcmpeq => "if_icmpeq"
  | .ifIcmpne => "if_icmpne"
  | .ifIcmplt => "if_icmplt"
  | .ifIcmpge => "if_icmpge"
  | .ifIcmpgt => "if_icmpgt"
  | .ifIcmple => "if_icmple"
  | .ifAcmpeq => "if_acmpeq"
  | .ifAcmpne => "if_acmpne"
  | .goto => "goto"
  | .jsr => "jsr"
  | .ret => "ret"
  | .tableswitch => "tableswitch"
  | .lookupswitch => "lookupswitch"
  | .ireturn => "ireturn"
  | .lreturn => "lreturn"
  | .freturn => "freturn"
  | .dreturn => "dreturn"
  | .areturn => "areturn"
  | .vreturn => "return"
  | .getstatic => "getstatic"
  | .putstatic => "putstatic"
  | .getfield => "getfield"
  | .putfield => "putfield"
  | .invokevirtual => "invokevirtual"
  | .invokespecial => "invokespecial"
  | .invokestatic => "invokestatic"
  | .invokeinterface => "invokeinterface"
  | .invokedynamic => "invokedynamic"
  | .new => "new"
  | .newarray => "newarray"
  | .anewarray => "anewarray"
  | .arraylength => "arraylength"
  | .athrow => "athrow"
  | .checkcast => "checkcast"
  | .instanceof => "instanceof"
  | .monitorenter => "monitorenter"
  | .monitorexit => "monitorexit"
  | .multianewarray => "multianewarray"
  | .ifnull => "ifnull"
  | .ifnonnull => "ifnonnull"

/-- The operands the opcode takes. -/
def shape : Opcode → OperandShape
  | .bipush | .sipush => .int
  | .ldc => .ldc
  | .iload | .lload | .fload | .dload | .aload | .istore | .lstore | .fstore | .dstore
  | .astore | .ret => .var
  | .iinc => .iinc
  | .ifeq | .ifne | .iflt | .ifge | .ifgt | .ifle | .ifIcmpeq | .ifIcmpne | .ifIcmplt
  | .ifIcmpge | .ifIcmpgt | .ifIcmple | .ifAcmpeq | .ifAcmpne | .goto | .jsr | .ifnull
  | .ifnonnull => .jump
  | .tableswitch => .tableSwitch
  | .lookupswitch => .lookupSwitch
  | .getstatic | .putstatic | .getfield | .putfield => .field
  | .invokevirtual | .invokespecial | .invokestatic | .invokeinterface => .method
  | .invokedynamic => .invokeDynamic
  | .new | .anewarray | .checkcast | .instanceof => .type
  | .newarray => .newArray
  | .multianewarray => .multiArray
  | _ => .none

def ofCode? (n : Nat) : Option Opcode := all.find? fun op => op.code = n

/-- The opcode with a mnemonic, in any case. -/
def ofMnemonic? (word : String) : Option Opcode := all.find? fun op => sameFolded op.mnemonic word

/-- How the opcode touches a local variable, if it does. -/
def varUse? : Opcode → Option VarUse
  | .istore | .lstore | .fstore | .dstore | .astore => some .assign
  | .iload | .lload | .fload | .dload | .aload | .ret => some .load
  | .iinc => some .update
  | _ => Option.none

/-- The type of the local variable an opcode touches.  Reference opcodes do not
say which class they handle, so theirs is the root class. -/
def varType? : Opcode → Option Ty
  | .iinc | .iload | .istore => some .int
  | .aload | .astore | .ret => some (.object Ty.rootClass)
  | .fload | .fstore => some (.prim .float)
  | .dload | .dstore => some (.prim .double)
  | .lload | .lstore => some (.prim .long)
  | _ => Option.none

/-- The characters of a mnemonic without underscores, the first in upper case. -/
def capitalized (cs : List Char) : List Char :=
  match cs.filter (· ≠ '_') with
  | c :: cs => c.toUpper :: cs
  | [] => []

/-- The name diagnostics use: the mnemonic without underscores and with a
capital; the comparing jumps have a second capital after their `if`. -/
def title (op : Opcode) : String :=
  match op.mnemonic.toList with
  | 'i' :: 'f' :: '_' :: cs => "If" ++ String.ofList (capitalized cs)
  | cs => String.ofList (capitalized cs)

end Opcode

end JvmListing

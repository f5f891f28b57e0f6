import AesCore.Clocked
import AesCore.KeyAlternating
import AesCore.Circulant
import AesCore.ByteField
import AesCore.Fips197
import AesCore.KeyExpand
import AesCore.CipherTop
import AesCore.CipherRun
import AesCore.InvCipherTop
import AesCore.InvControl
import AesCore.KeyBuffer
import AesCore.InvCipherRun
import AesCore.RoundTrip
import AesCore.InvRestart
import AesCore.TornKey
import AesCore.AesTop
import AesCore.Completions
import AesCore.GoldenCipher
import AesCore.GoldenModel
import AesCore.Scoreboard
import AesCore.DataPath
import AesCore.Isolation
import AesCore.KeyLengths
import AesCore.GoldenVariants
import AesCore.InvCompletions
import AesCore.VectorBench
import AesCore.Stimulus
import AesCore.PythonAes
import AesCore.CounterMode
import AesCore.DebugPorts
import AesCore.AesEnv
import AesCore.TestProgram
import AesCore.Generator
import AesCore.AnswerOrder
import AesCore.Engine
import AesCore.Overlap
import AesCore.Session
import AesCore.ByteCipher
import AesCore.ByteChaining
import AesCore.ByteOnTheFly
import AesCore.Fallible
import AesCore.RijndaelTables
import AesCore.RijndaelRounds
import AesCore.RijndaelKeys
import AesCore.RijndaelCipher

import Aes128.Gf256
import Aes128.Fips197
import Aes128.Cyclic
import Aes128.Clocked
import Aes128.Rounds
import Aes128.Datapath
import Aes128.Stages
import Aes128.Columns
import Aes128.Permutation
import Aes128.Top
import Aes128.Wrapper
import Aes128.Engine
import Aes128.Refine
import Aes128.Invariants
import Aes128.Soundness
import Aes128.CorePermutation
import Aes128.Starts
import Aes128.Waits
import Aes128.TwoRuns
import Aes128.Handshake
import Aes128.KeyLoad
import Aes128.Commands
import Aes128.Freshness
import Aes128.Master
import Aes128.Driver
import Aes128.Sessions
import Aes128.Registers
import Aes128.Counting
import Aes128.Accounts
import Aes128.Origins
import Aes128.Results
import Aes128.Translator
import Aes128.Qsys
import Aes128.Resets
import Aes128.KeySchedule
import Aes128.Bench
import Aes128.Versions
import Aes128.Fifo
import Aes128.RoundRobin
import Aes128.Arbitrator
import Aes128.Crossbar
import Aes128.Quiet
import Aes128.Decrypt
import Aes128.Fields
import Aes128.Uncompressor
import Aes128.Agents
import Aes128.Interconnect

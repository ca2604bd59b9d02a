import Stm32Dds.ByteMemory
import Stm32Dds.TaggedRecords
import Stm32Dds.Runs
import Stm32Dds.BitFields
import Stm32Dds.Ad9910Registers
import Stm32Dds.Ad9910Driver
import Stm32Dds.CommandQueue
import Stm32Dds.QueueRecords
import Stm32Dds.CommandExecution
import Stm32Dds.ShadowCoherence
import Stm32Dds.QueuePlayback
import Stm32Dds.ScpiCallbacks
import Stm32Dds.ProgramMode
import Stm32Dds.QueueSnapshots
import Stm32Dds.ScpiParser
import Stm32Dds.HeaderMatching
import Stm32Dds.HeaderCarry
import Stm32Dds.PacketGrouping
import Stm32Dds.CountedChains
import Stm32Dds.PacketBuffers
import Stm32Dds.Eeprom
import Stm32Dds.Checksums
import Stm32Dds.CrcUnit
import Stm32Dds.StartupStore
import Stm32Dds.ConfigStore
import Stm32Dds.DecimalText
import Stm32Dds.NetworkSettings
import Stm32Dds.QueueFailures
import Stm32Dds.RegisterFlush
import Stm32Dds.SettingsReadback
import Stm32Dds.Replies
import Stm32Dds.Scanning
import Stm32Dds.ScpiLexer
import Stm32Dds.MessageUnits
import Stm32Dds.BlockUnits
import Stm32Dds.PacketStream
import Stm32Dds.BlockResume
import Stm32Dds.RegisterFrames
import Stm32Dds.ParallelPlayback
import Stm32Dds.AddressText
import Stm32Dds.ParallelFrequency
import Stm32Dds.PhysicalUnits
import Stm32Dds.RegisterSettings
import Stm32Dds.ValueResend
import Stm32Dds.ChoiceQueries
import Stm32Dds.PacketOrder
import Stm32Dds.BlockUploads
import Stm32Dds.FieldLaws
import Stm32Dds.PeriodicTimers
import Stm32Dds.Numerals
import Stm32Dds.RingBuffer
import Stm32Dds.ScpiOutput
import Stm32Dds.StatusRegisters
import Stm32Dds.ErrorQueue
import Stm32Dds.ReplyFraming
import Stm32Dds.HeaderRewriting
import Stm32Dds.FlashDamage
import Stm32Dds.ScpiParameters
import Stm32Dds.CommandLines
import Stm32Dds.SetCommands
import Stm32Dds.IntegerParameters
import Stm32Dds.SampleTransfer
